import CloverVM.Machine.FloorDivision
import CloverVM.Runtime.RangeLoop
import CloverVM.Stdlib.Exceptions

/-!
# The integer functions of the math module

`comb`, `perm`, `gcd`, `lcm` and `isqrt` of `math.py` on ints of any size.
An int is its mathematical value; `//` and `%` are floored, and `//` raises on
a zero divisor.  Two places ask for the representation: `range` takes SMIs only,
and the truth of an int is that of an SMI, so that `gcd` and `lcm` raise where
they come to `while value` with a larger one.
-/

namespace CloverVM.Stdlib.Math

open CloverVM.ObjectModel
open CloverVM.Machine CloverVM.Machine.Producer
open CloverVM.Runtime

/-- `a // b` -/
def floordiv (a b : Int) : Except BuiltinException Int :=
  if b = 0 then .error zeroDivisionError else .ok (a.fdiv b)

/-- The values of `for _ in range(start, stop)`. -/
def range (start stop : Int) : Except BuiltinException (List Int) :=
  if SmiRange start ∧ SmiRange stop then .ok (terms start stop 1)
  else .error rangeIntegerArgumentError

/-- The truth of an int, as a conditional jump asks it: beyond the SMIs the word
is a pointer, and not one to a float. -/
def isTruthy (value : Int) : Except BuiltinException Bool :=
  if SmiRange value then .ok (value ≠ 0)
  else .error unsupportedTruthinessError

theorem ne_zero_of_isTruthy {value : Int} (h : isTruthy value = .ok true) :
    value ≠ 0 := by
  rw [isTruthy] at h
  split at h
  · exact of_decide_eq_true (Except.ok.inj h)
  · cases h

/-- `_abs` -/
def abs (x : Int) : Int := if x < 0 then -x else x

/-- `_check_nonnegative_int`, which does not use the name it is given. -/
def checkNonnegativeInt (value : Int) : Except BuiltinException Int :=
  if value < 0 then .error valueError else .ok value

/-! ## The functions -/

/-- The body of the loop of `comb`. -/
def combStep (n k result i : Int) : Except BuiltinException Int :=
  floordiv (result * (n - k + i)) i

def comb (n k : Int) : Except BuiltinException Int := do
  let n ← checkNonnegativeInt n
  let k ← checkNonnegativeInt k
  if k > n then return 0
  let other := n - k
  let k := if other < k then other else k
  (← range 1 (k + 1)).foldlM (combStep n k) 1

/-- `while n > stop` -/
def permLoop (result n stop : Int) : Int :=
  if n > stop then permLoop (result * n) (n - 1) stop else result
termination_by (n - stop).toNat
decreasing_by omega

def perm (n : Int) (k : Option Int) : Except BuiltinException Int := do
  let n ← checkNonnegativeInt n
  let k ← checkNonnegativeInt (k.getD n)
  if k > n then return 0
  return permLoop 1 n (n - k)

/-- `while value`: the divisor of `%` is never zero. -/
def gcdLoop (result value : Int) : Except BuiltinException Int :=
  match _h : isTruthy value with
  | .error error => .error error
  | .ok false => .ok result
  | .ok true => gcdLoop value (result.fmod value)
termination_by value.natAbs
decreasing_by exact natAbs_fmod_lt result (ne_zero_of_isTruthy _h)

def gcd (integers : List Int) : Except BuiltinException Int :=
  integers.foldlM (fun result value => gcdLoop result (abs value)) 0

/-- The body of the loop of `lcm`. -/
def lcmStep (result value : Int) : Except BuiltinException Int :=
  let value := abs value
  if result = 0 ∨ value = 0 then .ok 0
  else do
    let common ← gcd [result, value]
    let quotient ← floordiv result common
    return quotient * value

def lcm (integers : List Int) : Except BuiltinException Int :=
  integers.foldlM lcmStep 1

/-- `while low <= high` -/
def isqrtLoop (n low high : Int) : Int :=
  if h : low ≤ high then
    let mid := (low + high).fdiv 2
    let square := mid * mid
    have := le_fdiv_two h
    have := fdiv_two_le h
    if square = n then mid
    else if square < n then isqrtLoop n (mid + 1) high
    else isqrtLoop n low (mid - 1)
  else high
termination_by (high + 1 - low).toNat
decreasing_by all_goals omega

def isqrt (n : Int) : Except BuiltinException Int := do
  let n ← checkNonnegativeInt n
  if n < 2 then return n
  return isqrtLoop n 1 n

/-- Between the squares of two neighbours there is one root. -/
theorem isGreatest_root {n r : Int} (hNonneg : 0 ≤ r) (hLow : r * r ≤ n)
    (hHigh : n < (r + 1) * (r + 1)) : IsGreatest { x : Int | x * x ≤ n } r := by
  refine ⟨hLow, ?_⟩
  intro x (hx : x * x ≤ n)
  by_contra hLess
  have hNext : r + 1 ≤ x := by omega
  have hSquare : (r + 1) * (r + 1) ≤ x * x :=
    mul_le_mul hNext hNext (by omega) (by omega)
  omega

/-- The bounds bracket the root, and when they cross, the upper one is it. -/
theorem isqrtLoop_spec (n low high : Int) (hPos : 1 ≤ low)
    (hOrder : low ≤ high + 1) (hBelow : (low - 1) * (low - 1) ≤ n)
    (hAbove : n < (high + 1) * (high + 1)) :
    IsGreatest { x : Int | x * x ≤ n } (isqrtLoop n low high) := by
  induction low, high using isqrtLoop.induct n with
  | case1 low high h mid square hLow hHigh hEq =>
      rw [isqrtLoop, dif_pos h, if_pos hEq]
      have hNext : square < (mid + 1) * (mid + 1) := by
        change mid * mid < _
        nlinarith
      rw [hEq] at hNext
      exact isGreatest_root (by omega) hEq.le hNext
  | case2 low high h mid square hLow hHigh hNe hLess ih =>
      rw [isqrtLoop, dif_pos h, if_neg hNe, if_pos hLess]
      refine ih (by omega) (by omega) ?_ hAbove
      rw [show mid + 1 - 1 = mid by omega]
      exact hLess.le
  | case3 low high h mid square hLow hHigh hNe hGe ih =>
      rw [isqrtLoop, dif_pos h, if_neg hNe, if_neg hGe]
      refine ih hPos (by omega) hBelow ?_
      rw [show mid - 1 + 1 = mid by omega]
      omega
  | case4 low high h =>
      rw [isqrtLoop, dif_neg h]
      have hCrossed : low - 1 = high := by omega
      rw [hCrossed] at hBelow
      exact isGreatest_root (by omega) hBelow hAbove

theorem isqrt_spec {n : Int} (hn : 0 ≤ n) :
    ∃ r, isqrt n = .ok r ∧ IsGreatest { x : Int | x * x ≤ n } r := by
  have hCheck : checkNonnegativeInt n = .ok n := if_neg (by omega)
  by_cases hSmall : n < 2
  · refine ⟨n, ?_, ?_⟩
    · simp only [isqrt, hCheck, bind, Except.bind, if_pos hSmall]
      rfl
    · have hCases : n = 0 ∨ n = 1 := by omega
      rcases hCases with rfl | rfl
      · exact isGreatest_root (by decide) (by decide) (by decide)
      · exact isGreatest_root (by decide) (by decide) (by decide)
  · refine ⟨isqrtLoop n 1 n, ?_, ?_⟩
    · simp only [isqrt, hCheck, bind, Except.bind, if_neg hSmall]
      rfl
    · exact isqrtLoop_spec n 1 n (by omega) (by omega) (by omega)
        (by nlinarith)

/-! ## Falling factorials and binomial coefficients -/

theorem checkNonnegativeInt_of_nonneg {n : Int} (hn : 0 ≤ n) :
    checkNonnegativeInt n = .ok n := if_neg (by omega)

/-- The factors from `n` down to the stop. -/
theorem permLoop_eq (n k : Nat) (hk : k ≤ n) (result : Int) :
    permLoop result n ((n - k : Nat) : Int) = result * n.descFactorial k := by
  induction k generalizing n result with
  | zero =>
      rw [permLoop, if_neg (by omega), Nat.descFactorial_zero, Nat.cast_one,
        mul_one]
  | succ k ih =>
      obtain ⟨m, rfl⟩ : ∃ m, n = m + 1 := ⟨n - 1, by omega⟩
      have hStop : m + 1 - (k + 1) = m - k := by omega
      have hPrevious : ((m + 1 : Nat) : Int) - 1 = m := by omega
      rw [permLoop, if_pos (by omega), hStop, hPrevious, ih m (by omega),
        Nat.succ_descFactorial_succ, Nat.cast_mul, mul_assoc]

theorem perm_spec {n k : Int} (hn : 0 ≤ n) (hk : 0 ≤ k) :
    perm n (some k) = .ok (n.toNat.descFactorial k.toNat) := by
  have hStep : perm n (some k) =
      if k > n then .ok 0 else .ok (permLoop 1 n (n - k)) := by
    simp only [perm, checkNonnegativeInt_of_nonneg hn, Option.getD_some,
      checkNonnegativeInt_of_nonneg hk, bind, Except.bind]
    rfl
  rw [hStep]
  split
  · rename_i hGreater
    rw [Nat.descFactorial_eq_zero_iff_lt.mpr (by omega)]
    rfl
  · rename_i hLe
    have hLoop := permLoop_eq n.toNat k.toNat (by omega) 1
    rw [Int.toNat_of_nonneg hn, one_mul] at hLoop
    rw [← hLoop]
    congr 2
    omega

/-- The partial products of `comb` are binomial coefficients. -/
theorem choose_mul_succ (m i : Nat) :
    (((m + i).choose i : Nat) : Int) * (m + (i + 1 : Nat) : Nat) =
      ((m + (i + 1)).choose (i + 1) : Nat) * (i + 1 : Nat) := by
  have hChoose := Nat.add_one_mul_choose_eq (m + i) i
  rw [← Nat.cast_mul, ← Nat.cast_mul, Nat.cast_inj]
  calc (m + i).choose i * (m + (i + 1))
      = (m + i + 1) * (m + i).choose i := Nat.mul_comm _ _
    _ = (m + (i + 1)).choose (i + 1) * (i + 1) := hChoose

theorem terms_one_succ (k : Nat) :
    terms 1 (k + 1) 1 = (List.range k).map fun i => ((i + 1 : Nat) : Int) := by
  have hCount : termCount 1 (k + 1) 1 = k := by
    rw [termCount, if_pos (by decide)]
    omega
  rw [terms, hCount]
  refine List.map_congr_left fun i _ => ?_
  omega

/-- The factor of a turn. -/
theorem combFactor_eq (m k i : Nat) :
    ((m + k : Nat) : Int) - k + (i + 1 : Nat) = (m + (i + 1) : Nat) := by
  push_cast
  ring

/-- One turn of the loop divides exactly. -/
theorem combStep_eq (m k i : Nat) :
    combStep (m + k : Nat) k ((m + i).choose i) (i + 1 : Nat) =
      .ok ((m + (i + 1)).choose (i + 1) : Nat) := by
  rw [combStep, combFactor_eq, choose_mul_succ, floordiv, if_neg (by omega),
    Int.mul_fdiv_cancel _ (by omega)]

theorem combLoop_eq (m k turns : Nat) :
    ((List.range turns).map fun i => ((i + 1 : Nat) : Int)).foldlM
        (combStep (m + k : Nat) k) 1 = .ok ((m + turns).choose turns : Nat) := by
  induction turns with
  | zero => rw [Nat.choose_zero_right]; rfl
  | succ turns ih =>
      rw [List.range_succ, List.map_append, List.foldlM_append, ih]
      simp only [List.map_cons, List.map_nil, List.foldlM_cons,
        List.foldlM_nil, bind_pure]
      exact combStep_eq m k turns

/-- `comb` after its checks, with the smaller of the two lower indices. -/
theorem comb_eq {n k : Int} (hk : 0 ≤ k) (hLe : k ≤ n) :
    comb n k = (range 1 (min k (n - k) + 1)).bind
      (List.foldlM (combStep n (min k (n - k))) 1) := by
  have hMin : (if n - k < k then n - k else k) = min k (n - k) := by
    split <;> omega
  rw [comb, checkNonnegativeInt_of_nonneg (by omega),
    checkNonnegativeInt_of_nonneg hk]
  simp only [bind, Except.bind, if_neg (show ¬ k > n by omega), hMin]

theorem comb_of_lt {n k : Int} (hn : 0 ≤ n) (hk : n < k) : comb n k = .ok 0 := by
  rw [comb, checkNonnegativeInt_of_nonneg hn,
    checkNonnegativeInt_of_nonneg (by omega)]
  simp only [bind, Except.bind, if_pos (show k > n from hk)]
  rfl

/-- The values of the loop counter, which only SMIs bound. -/
theorem range_one_succ {k : Int} (hk : 0 ≤ k) (hFits : SmiRange (k + 1)) :
    range 1 (k + 1) =
      .ok ((List.range k.toNat).map fun i => ((i + 1 : Nat) : Int)) := by
  rw [range, if_pos ⟨by decide, hFits⟩, ← terms_one_succ,
    Int.toNat_of_nonneg hk]

theorem comb_spec {n k : Int} (hn : 0 ≤ n) (hk : 0 ≤ k)
    (hFits : SmiRange (min k (n - k) + 1)) :
    comb n k = .ok (n.toNat.choose k.toNat) := by
  by_cases hLess : n < k
  · rw [comb_of_lt hn hLess, Nat.choose_eq_zero_of_lt (by omega)]
    rfl
  · set lower := min k (n - k) with hLower
    have hSplit : n = (n.toNat - lower.toNat + lower.toNat : Nat) := by omega
    have hLoop := combLoop_eq (n.toNat - lower.toNat) lower.toNat lower.toNat
    rw [← hSplit, Int.toNat_of_nonneg (by omega)] at hLoop
    rw [comb_eq hk (by omega), ← hLower, range_one_succ (by omega) hFits]
    refine hLoop.trans ?_
    rw [Nat.sub_add_cancel (by omega)]
    have hCases : lower = k ∨ lower = n - k := by omega
    rcases hCases with hEq | hEq
    · rw [hEq]
    · rw [hEq, show (n - k).toNat = n.toNat - k.toNat by omega,
        Nat.choose_symm (by omega)]

/-- Before every turn the partial product times the next factor is a multiple
of the counter. -/
theorem combStep_exact {n k : Int} (hk : 0 ≤ k) (hLe : k ≤ n)
    {done rest : List Int} {i : Int}
    (hRange : range 1 (k + 1) = .ok (done ++ i :: rest)) :
    ∃ result, done.foldlM (combStep n k) 1 = .ok result ∧
      i ∣ result * (n - k + i) := by
  have hFits : SmiRange (k + 1) := by
    by_contra hNot
    rw [range, if_neg (fun h => hNot h.2)] at hRange
    cases hRange
  rw [range_one_succ hk hFits, Except.ok.injEq] at hRange
  obtain ⟨before, after, hSplit, rfl, hAfter⟩ :=
    List.map_eq_append_iff.mp hRange
  rw [List.range_eq_range'] at hSplit
  obtain ⟨turns, hTurns, rfl, rfl⟩ := List.range'_eq_append_iff.mp hSplit
  rw [← List.range_eq_range']
  obtain ⟨turn, later, hLater, rfl, -⟩ := List.map_eq_cons_iff.mp hAfter
  obtain ⟨hTurn, -⟩ := List.range'_eq_cons_iff.mp hLater
  obtain rfl : turns = turn := by omega
  obtain ⟨m, rfl⟩ : ∃ m : Nat, n = (m + k.toNat : Nat) :=
    ⟨(n - k).toNat, by omega⟩
  obtain ⟨lower, rfl⟩ : ∃ lower : Nat, k = lower := ⟨k.toNat, by omega⟩
  refine ⟨_, combLoop_eq m lower turns, (m + (turns + 1)).choose (turns + 1), ?_⟩
  rw [Int.toNat_natCast, combFactor_eq, choose_mul_succ, mul_comm]

/-! ## Greatest common divisors and least common multiples -/

theorem abs_eq_zero_iff (x : Int) : abs x = 0 ↔ x = 0 := by
  rw [abs]
  split <;> omega

theorem abs_nonneg (x : Int) : 0 ≤ abs x := by
  rw [abs]
  split <;> omega

theorem abs_of_nonneg {x : Int} (hx : 0 ≤ x) : abs x = x := if_neg (by omega)

theorem dvd_abs_iff (d x : Int) : d ∣ abs x ↔ d ∣ x := by
  rw [abs]
  split
  · exact dvd_neg
  · rfl

theorem abs_dvd_iff (d x : Int) : abs x ∣ d ↔ x ∣ d := by
  rw [abs]
  split
  · exact neg_dvd
  · rfl

/-- A turn of the loop asks for the truth of the value, and goes on or ends. -/
theorem gcdLoop_turn {result value : Int} {truth : Except BuiltinException Bool}
    (h : isTruthy value = truth) :
    gcdLoop result value = truth.bind fun goesOn =>
      if goesOn then gcdLoop value (result.fmod value) else .ok result := by
  rw [gcdLoop, ← h]
  split <;>
  · rename_i hTruth
    rw [hTruth]
    rfl

theorem gcdLoop_of_not_smi (result : Int) {value : Int}
    (hSmi : ¬ SmiRange value) :
    gcdLoop result value = .error unsupportedTruthinessError :=
  gcdLoop_turn (if_neg hSmi)

/-- Euclid's algorithm on nonnegative ints: only the first divisor may be too
large to be asked for its truth. -/
theorem gcdLoop_eq (result value : Int) (hResult : 0 ≤ result)
    (hValue : 0 ≤ value) (hSmi : SmiRange value) :
    gcdLoop result value = .ok (Int.gcd result value) := by
  induction result, value using gcdLoop.induct with
  | case1 result value error hTruth =>
      rw [isTruthy, if_pos hSmi] at hTruth
      cases hTruth
  | case2 result value hTruth =>
      have hZero : value = 0 := by
        rw [isTruthy, if_pos hSmi] at hTruth
        simpa using of_decide_eq_false (Except.ok.inj hTruth)
      rw [gcdLoop_turn hTruth, hZero, Int.gcd_zero_right,
        Int.natAbs_of_nonneg hResult]
      rfl
  | case3 result value hTruth ih =>
      have hNe := ne_zero_of_isTruthy hTruth
      have hNonneg := Int.fmod_nonneg_of_pos result
        (show 0 < value by omega)
      have hLess := Int.fmod_lt_of_pos result (show 0 < value by omega)
      have hMin : valueSmiMin ≤ 0 := by decide
      rw [gcdLoop_turn hTruth, ← gcd_fmod]
      exact ih hValue hNonneg ⟨hMin.trans hNonneg, hLess.le.trans hSmi.2⟩

/-- The nonnegative common divisor that every common divisor divides. -/
def IsGcdOf (integers : List Int) (g : Int) : Prop :=
  0 ≤ g ∧ (∀ value ∈ integers, g ∣ value) ∧
    ∀ d, (∀ value ∈ integers, d ∣ value) → d ∣ g

/-- The nonnegative common multiple that divides every common multiple. -/
def IsLcmOf (integers : List Int) (m : Int) : Prop :=
  0 ≤ m ∧ (∀ value ∈ integers, value ∣ m) ∧
    ∀ d, (∀ value ∈ integers, value ∣ d) → m ∣ d

theorem isGcdOf_nil : IsGcdOf [] 0 :=
  ⟨le_refl 0, List.forall_mem_nil _, fun d _ => dvd_zero d⟩

theorem isLcmOf_nil : IsLcmOf [] 1 :=
  ⟨by decide, List.forall_mem_nil _, fun d _ => one_dvd d⟩

theorem IsGcdOf.concat {done : List Int} {g : Int} (h : IsGcdOf done g)
    (value : Int) : IsGcdOf (done ++ [value]) (Int.gcd g (abs value)) := by
  obtain ⟨-, hDivides, hGreatest⟩ := h
  refine ⟨Int.natCast_nonneg _, ?_, ?_⟩
  · intro v hv
    rcases List.mem_append.mp hv with hv | hv
    · exact (Int.gcd_dvd_left _ _).trans (hDivides v hv)
    · rw [List.mem_singleton.mp hv]
      exact (dvd_abs_iff _ _).mp (Int.gcd_dvd_right _ _)
  · intro d hd
    refine Int.dvd_coe_gcd (hGreatest d fun v hv => ?_)
      ((dvd_abs_iff _ _).mpr (hd value (by simp)))
    exact hd v (List.mem_append_left _ hv)

theorem IsLcmOf.concat {done : List Int} {m : Int} (h : IsLcmOf done m)
    (value : Int) : IsLcmOf (done ++ [value]) (Int.lcm m (abs value)) := by
  obtain ⟨-, hMultiple, hLeast⟩ := h
  refine ⟨Int.natCast_nonneg _, ?_, ?_⟩
  · intro v hv
    rcases List.mem_append.mp hv with hv | hv
    · exact (hMultiple v hv).trans (Int.dvd_lcm_left _ _)
    · rw [List.mem_singleton.mp hv]
      exact (abs_dvd_iff _ _).mp (Int.dvd_lcm_right _ _)
  · intro d hd
    refine Int.coe_lcm_dvd (hLeast d fun v hv => ?_)
      ((abs_dvd_iff _ _).mpr (hd value (by simp)))
    exact hd v (List.mem_append_left _ hv)

/-- The running result is the divisor of what was read. -/
theorem gcdFold_spec (integers : List Int) {done : List Int} {result : Int}
    (h : IsGcdOf done result) (hSmi : ∀ v ∈ integers, SmiRange (abs v)) :
    ∃ g, integers.foldlM
        (fun result value => gcdLoop result (abs value)) result = .ok g ∧
      IsGcdOf (done ++ integers) g := by
  induction integers generalizing done result with
  | nil => exact ⟨result, rfl, by rwa [List.append_nil]⟩
  | cons value integers ih =>
      obtain ⟨hValue, hRest⟩ := List.forall_mem_cons.mp hSmi
      obtain ⟨g, hRun, hGcd⟩ := ih (h.concat value) hRest
      refine ⟨g, ?_, by rwa [List.append_cons]⟩
      rw [List.foldlM_cons, gcdLoop_eq _ _ h.1 (abs_nonneg value) hValue]
      exact hRun

/-- Every value that was read is an SMI. -/
theorem smiRange_of_gcdFold {integers : List Int} {result g : Int}
    (h : integers.foldlM
      (fun result value => gcdLoop result (abs value)) result = .ok g) :
    ∀ v ∈ integers, SmiRange (abs v) := by
  induction integers generalizing result with
  | nil => exact List.forall_mem_nil _
  | cons value integers ih =>
      rw [List.foldlM_cons] at h
      by_cases hSmi : SmiRange (abs value)
      · cases hFirst : gcdLoop result (abs value) with
        | error error =>
            rw [hFirst] at h
            cases h
        | ok next =>
            rw [hFirst] at h
            exact List.forall_mem_cons.mpr ⟨hSmi, ih h⟩
      · rw [gcdLoop_of_not_smi result hSmi] at h
        cases h

theorem gcd_spec {integers : List Int}
    (hSmi : ∀ v ∈ integers, SmiRange (abs v)) :
    ∃ g, gcd integers = .ok g ∧ IsGcdOf integers g :=
  gcdFold_spec integers isGcdOf_nil hSmi

theorem gcd_pair {a b : Int} (ha : 0 ≤ a) (hb : 0 ≤ b) (haSmi : SmiRange a)
    (hbSmi : SmiRange b) : gcd [a, b] = .ok (Int.gcd a b) := by
  simp only [gcd, List.foldlM_cons, List.foldlM_nil, abs_of_nonneg ha,
    abs_of_nonneg hb]
  rw [gcdLoop_eq 0 a (le_refl 0) ha haSmi, Int.gcd_zero_left]
  change (gcdLoop (a.natAbs : Int) b >>= pure) = _
  rw [gcdLoop_eq _ b (by omega) hb hbSmi]
  rfl

theorem gcd_pair_smi {a b g : Int} (ha : 0 ≤ a) (hb : 0 ≤ b)
    (h : gcd [a, b] = .ok g) : SmiRange a ∧ SmiRange b := by
  have hSmi := smiRange_of_gcdFold h
  simp only [List.forall_mem_cons, abs_of_nonneg ha, abs_of_nonneg hb] at hSmi
  exact ⟨hSmi.1, hSmi.2.1⟩

/-- One turn of the loop of `lcm`. -/
theorem lcmStep_eq {result value : Int} (hResult : 0 ≤ result)
    (hSmi : result ≠ 0 → value ≠ 0 → SmiRange result ∧ SmiRange (abs value)) :
    lcmStep result value = .ok (Int.lcm result (abs value)) := by
  have hValue := abs_nonneg value
  rw [lcmStep]
  split
  · rename_i hZero
    rcases hZero with rfl | hZero
    · rw [Int.lcm_zero_left]
      rfl
    · rw [hZero, Int.lcm_zero_right]
      rfl
  · rename_i hNe
    obtain ⟨hResultNe, hValueNe⟩ := not_or.mp hNe
    obtain ⟨hResultSmi, hValueSmi⟩ := hSmi hResultNe
      (mt (abs_eq_zero_iff value).mpr hValueNe)
    have hCommon : (Int.gcd result (abs value) : Int) ≠ 0 := by
      rw [Ne, Int.natCast_eq_zero, Int.gcd_eq_zero_iff]
      exact fun h => hResultNe h.1
    rw [gcd_pair hResult hValue hResultSmi hValueSmi]
    change (floordiv result (Int.gcd result (abs value))).bind
      (fun quotient => .ok (quotient * abs value)) = _
    rw [floordiv, if_neg hCommon]
    refine congrArg Except.ok ?_
    refine mul_right_cancel₀ hCommon ?_
    have hProduct := Int.gcd_mul_lcm result (abs value)
    have hQuotient := Int.fdiv_mul_cancel
      (Int.gcd_dvd_left result (abs value))
    have hNatAbs : ((result * abs value).natAbs : Int) = result * abs value :=
      Int.natAbs_of_nonneg (mul_nonneg hResult hValue)
    calc result.fdiv (Int.gcd result (abs value)) * abs value *
          (Int.gcd result (abs value))
        = result.fdiv (Int.gcd result (abs value)) *
            (Int.gcd result (abs value)) * abs value := by ring
      _ = result * abs value := by rw [hQuotient]
      _ = (Int.gcd result (abs value) : Int) *
            (Int.lcm result (abs value)) := by
          rw [← hNatAbs, Int.natAbs_mul, ← hProduct, Nat.cast_mul]
      _ = _ := mul_comm _ _

/-- A turn that ends either has nothing to divide or has SMIs. -/
theorem lcmStep_smi {result value next : Int} (hResult : 0 ≤ result)
    (h : lcmStep result value = .ok next) (hResultNe : result ≠ 0)
    (hValueNe : value ≠ 0) : SmiRange result ∧ SmiRange (abs value) := by
  have hAbsNe := mt (abs_eq_zero_iff value).mp hValueNe
  rw [lcmStep, if_neg (not_or.mpr ⟨hResultNe, hAbsNe⟩)] at h
  cases hCommon : gcd [result, abs value] with
  | error error =>
      rw [hCommon] at h
      cases h
  | ok common => exact gcd_pair_smi hResult (abs_nonneg value) hCommon

theorem IsLcmOf.eq_zero {integers : List Int} {m : Int}
    (h : IsLcmOf integers m) (hZero : 0 ∈ integers) : m = 0 :=
  zero_dvd_iff.mp (h.2.1 0 hZero)

/-- Only a zero among the values makes the multiple zero. -/
theorem IsLcmOf.ne_zero_iff {integers : List Int} {m : Int}
    (h : IsLcmOf integers m) : m ≠ 0 ↔ 0 ∉ integers := by
  refine ⟨fun hNe hZero => hNe (h.eq_zero hZero), fun hNot hZero => hNot ?_⟩
  have hProduct := h.2.2 integers.prod fun v hv => List.dvd_prod hv
  rw [hZero, zero_dvd_iff] at hProduct
  exact List.prod_eq_zero_iff.mp hProduct

/-- The values have a common multiple among the positive SMIs. -/
def HaveSmiMultiple (integers : List Int) : Prop :=
  ∃ m, 0 < m ∧ SmiRange m ∧ ∀ value ∈ integers, value ∣ m

theorem IsLcmOf.smiRange_iff {integers : List Int} {m : Int}
    (h : IsLcmOf integers m) (hNe : m ≠ 0) :
    SmiRange m ↔ HaveSmiMultiple integers := by
  have hNonneg := h.1
  constructor
  · exact fun hSmi => ⟨m, by omega, hSmi, h.2.1⟩
  · rintro ⟨d, hPos, hSmi, hd⟩
    have hLe := Int.le_of_dvd hPos (h.2.2 d hd)
    have hMin : valueSmiMin ≤ 0 := by decide
    exact ⟨hMin.trans hNonneg, hLe.trans hSmi.2⟩

/-- What `lcm` asks of its values after others: up to the first zero, each is an
SMI, and those before it have a common multiple that is one. -/
def MultiplesFit (done integers : List Int) : Prop :=
  ∀ before value after, integers = before ++ value :: after →
    0 ∉ done ++ before → value ≠ 0 →
      SmiRange (abs value) ∧ HaveSmiMultiple (done ++ before)

theorem multiplesFit_cons (done : List Int) (value : Int)
    (integers : List Int) :
    MultiplesFit done (value :: integers) ↔
      (0 ∉ done → value ≠ 0 → SmiRange (abs value) ∧ HaveSmiMultiple done) ∧
        MultiplesFit (done ++ [value]) integers := by
  constructor
  · intro h
    refine ⟨fun hDone hValue => ?_, fun before v after hSplit => ?_⟩
    · have hHead := h [] value integers rfl
      rw [List.append_nil] at hHead
      exact hHead hDone hValue
    · rw [List.append_assoc]
      exact h (value :: before) v after (by rw [hSplit]; rfl)
  · rintro ⟨hHead, hRest⟩ before v after hSplit
    cases before with
    | nil =>
        obtain ⟨rfl, -⟩ := List.cons.inj hSplit
        rw [List.append_nil]
        exact hHead
    | cons first before =>
        obtain ⟨rfl, hTail⟩ := List.cons.inj hSplit
        have hLater := hRest before v after hTail
        rwa [List.append_assoc] at hLater

/-- The running result is the multiple of what was read. -/
theorem lcmFold_spec (integers : List Int) {done : List Int} {result : Int}
    (h : IsLcmOf done result) (hFit : MultiplesFit done integers) :
    ∃ m, integers.foldlM lcmStep result = .ok m ∧
      IsLcmOf (done ++ integers) m := by
  induction integers generalizing done result with
  | nil => exact ⟨result, rfl, by rwa [List.append_nil]⟩
  | cons value integers ih =>
      obtain ⟨hHead, hRest⟩ := (multiplesFit_cons ..).mp hFit
      obtain ⟨m, hRun, hLcm⟩ := ih (h.concat value) hRest
      refine ⟨m, ?_, by rwa [List.append_cons]⟩
      rw [List.foldlM_cons, lcmStep_eq h.1 fun hResultNe hValueNe => ?_]
      · exact hRun
      · obtain ⟨hSmi, hMultiple⟩ := hHead (h.ne_zero_iff.mp hResultNe) hValueNe
        exact ⟨(h.smiRange_iff hResultNe).mpr hMultiple, hSmi⟩

theorem multiplesFit_of_lcmFold {integers done : List Int} {result m : Int}
    (h : IsLcmOf done result)
    (hRun : integers.foldlM lcmStep result = .ok m) :
    MultiplesFit done integers := by
  induction integers generalizing done result with
  | nil =>
      intro before value after hSplit
      exact absurd hSplit.symm (List.append_ne_nil_of_right_ne_nil _ nofun)
  | cons value integers ih =>
      rw [List.foldlM_cons] at hRun
      cases hFirst : lcmStep result value with
      | error error =>
          rw [hFirst] at hRun
          cases hRun
      | ok next =>
          have hSmi := lcmStep_smi h.1 hFirst
          rw [hFirst] at hRun
          rw [lcmStep_eq h.1 hSmi] at hFirst
          have hNext : next = Int.lcm result (abs value) :=
            (Except.ok.inj hFirst).symm
          rw [hNext] at hRun
          refine (multiplesFit_cons ..).mpr
            ⟨fun hDone hValueNe => ?_, ih (h.concat value) hRun⟩
          have hResultNe := h.ne_zero_iff.mpr hDone
          obtain ⟨hResultSmi, hValueSmi⟩ := hSmi hResultNe hValueNe
          exact ⟨hValueSmi, (h.smiRange_iff hResultNe).mp hResultSmi⟩

/-! ## The functions on every input -/

/-- A call of one of the functions. -/
inductive Call where
  | isqrt (n : Int)
  | perm (n k : Int)
  | comb (n k : Int)
  | gcd (integers : List Int)
  | lcm (integers : List Int)

/-- The call returns what the function is for. -/
def Call.Exact : Call → Prop
  | .isqrt n => 0 ≤ n →
      ∃ r, Math.isqrt n = .ok r ∧ IsGreatest { x : Int | x * x ≤ n } r
  | .perm n k => 0 ≤ n → 0 ≤ k →
      Math.perm n (some k) = .ok (n.toNat.descFactorial k.toNat) ∧
      (n < k → Math.perm n (some k) = .ok 0)
  | .comb n k => 0 ≤ n → 0 ≤ k →
      (SmiRange (min k (n - k) + 1) →
        Math.comb n k = .ok (n.toNat.choose k.toNat)) ∧
      (n < k → Math.comb n k = .ok 0) ∧
      -- the division of every turn leaves no remainder
      (k ≤ n → ∀ done i rest,
        range 1 (min k (n - k) + 1) = .ok (done ++ i :: rest) →
        ∃ result, done.foldlM (combStep n (min k (n - k))) 1 = .ok result ∧
          i ∣ result * (n - min k (n - k) + i))
  | .gcd integers => ∃ g, Math.gcd integers = .ok g ∧ IsGcdOf integers g ∧
      (integers = [] → g = 0)
  | .lcm integers => ∃ m, Math.lcm integers = .ok m ∧ IsLcmOf integers m ∧
      (0 ∈ integers → m = 0)

/-- Where no int beyond the SMIs is asked for its truth. -/
def Call.AsksOnlySmis : Call → Prop
  | .gcd integers => ∀ value ∈ integers, SmiRange (abs value)
  | .lcm integers => ∀ before value after,
      integers = before ++ value :: after → 0 ∉ before → value ≠ 0 →
        SmiRange (abs value) ∧ HaveSmiMultiple before
  | _ => True

theorem exact_perm (n k : Int) : (Call.perm n k).Exact := by
  intro hn hk
  refine ⟨perm_spec hn hk, fun hLess => ?_⟩
  rw [perm_spec hn hk, Nat.descFactorial_eq_zero_iff_lt.mpr (by omega)]
  rfl

theorem exact_comb (n k : Int) : (Call.comb n k).Exact :=
  fun hn hk => ⟨comb_spec hn hk, comb_of_lt hn, fun hLe _ _ _ hRange =>
    combStep_exact (by omega) (by omega) hRange⟩

theorem exact_gcd_iff (integers : List Int) :
    (Call.gcd integers).Exact ↔ (Call.gcd integers).AsksOnlySmis := by
  constructor
  · rintro ⟨g, hRun, -, -⟩
    exact smiRange_of_gcdFold hRun
  · intro hSmi
    obtain ⟨g, hRun, hGcd⟩ := gcd_spec hSmi
    refine ⟨g, hRun, hGcd, fun hNil => ?_⟩
    subst hNil
    exact (Except.ok.inj hRun).symm

theorem exact_lcm_iff (integers : List Int) :
    (Call.lcm integers).Exact ↔ (Call.lcm integers).AsksOnlySmis := by
  constructor
  · rintro ⟨m, hRun, -, -⟩
    exact multiplesFit_of_lcmFold isLcmOf_nil hRun
  · intro hFit
    obtain ⟨m, hRun, hLcm⟩ := lcmFold_spec integers isLcmOf_nil hFit
    exact ⟨m, hRun, hLcm, hLcm.eq_zero⟩

/-- The integer functions are exact on ints of any size but where `gcd`, or
`lcm` through it, comes to an int beyond the SMIs. -/
theorem integerFunctions_exact_iff (call : Call) :
    call.Exact ↔ call.AsksOnlySmis := by
  cases call with
  | isqrt n => exact iff_of_true isqrt_spec trivial
  | perm n k => exact iff_of_true (exact_perm n k) trivial
  | comb n k => exact iff_of_true (exact_comb n k) trivial
  | gcd integers => exact exact_gcd_iff integers
  | lcm integers => exact exact_lcm_iff integers

/-- The divisor of two ints of which one is beyond the SMIs. -/
theorem gcd_bigInt : gcd [6, 2 ^ 60] = .error unsupportedTruthinessError ∧
    ¬ ∀ call : Call, call.Exact := by
  have hRun : gcd [6, 2 ^ 60] = .error unsupportedTruthinessError := by
    simp only [gcd, List.foldlM_cons]
    rw [gcdLoop_eq 0 _ (le_refl 0) (by decide) (by decide)]
    change (gcdLoop _ (abs (2 ^ 60)) >>= _) = _
    rw [gcdLoop_of_not_smi _ (by decide)]
    rfl
  refine ⟨hRun, fun hExact => ?_⟩
  obtain ⟨g, hEnds, -⟩ := hExact (.gcd [6, 2 ^ 60])
  rw [hRun] at hEnds
  cases hEnds

end CloverVM.Stdlib.Math
