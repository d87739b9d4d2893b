import Mathlib.Data.Nat.Bitwise

/-!
# Rounding of sizes to powers of two

Sizes are 64-bit unsigned words.  The masks that round a size up or down to a
multiple of a power of two, as code writes them, are the divisions they stand
for.
-/

namespace CloverVM.Machine

/-- The largest value of a 64-bit size. -/
def sizeMax : Nat := 2 ^ 64 - 1

/-- Exactly one bit of the word is set. -/
def hasSingleBit (x : Nat) : Bool :=
  x != 0 && (x &&& (x - 1)) == 0

/-- The bitwise complement of a 64-bit size. -/
def complement (x : Nat) : Nat := 2 ^ 64 - (x + 1)

def roundUp (value alignment : Nat) : Nat :=
  (value + (alignment - 1)) &&& complement (alignment - 1)

def roundDown (value alignment : Nat) : Nat :=
  value &&& complement (alignment - 1)

theorem hasSingleBit_iff {x : Nat} : hasSingleBit x ↔ x.isPowerOfTwo := by
  unfold hasSingleBit
  rw [Bool.and_eq_true, bne_iff_ne, beq_iff_eq]
  exact Nat.ne_zero_and_sub_one_eq_zero_iff_isPowerOfTwo

theorem hasSingleBit_pos {x : Nat} (h : hasSingleBit x) : 0 < x :=
  Nat.pos_of_isPowerOfTwo (hasSingleBit_iff.mp h)

section Rounding

variable {value alignment : Nat}

/-- Of two powers of two the smaller one divides the other. -/
theorem dvd_of_hasSingleBit {x y : Nat} (hx : hasSingleBit x)
    (hy : hasSingleBit y) (h : x ≤ y) : x ∣ y := by
  obtain ⟨k, rfl⟩ := hasSingleBit_iff.mp hx
  obtain ⟨n, rfl⟩ := hasSingleBit_iff.mp hy
  exact Nat.pow_dvd_pow 2 ((Nat.pow_le_pow_iff_right (by decide)).mp h)

/-- Clearing the bits below a power of two. -/
theorem and_complement {k : Nat} (hk : k ≤ 64) (hv : value < 2 ^ 64) :
    value &&& complement (2 ^ k - 1) = value / 2 ^ k * 2 ^ k := by
  have hmask : 2 ^ k - 1 < 2 ^ 64 := by
    have := Nat.pow_le_pow_right (n := 2) (by decide) hk
    have := Nat.two_pow_pos k
    omega
  apply Nat.eq_of_testBit_eq
  intro i
  unfold complement
  rw [Nat.testBit_and, Nat.testBit_two_pow_sub_succ hmask,
    Nat.testBit_two_pow_sub_one, Nat.testBit_mul_two_pow]
  by_cases hi : k ≤ i
  · have hnot : ¬ i < k := by omega
    rw [decide_eq_true hi, decide_eq_false hnot, Nat.testBit_div_two_pow,
      Nat.sub_add_cancel hi]
    by_cases h64 : i < 64
    · simp [h64]
    · have hbit : value.testBit i = false :=
        Nat.testBit_lt_two_pow
          (lt_of_lt_of_le hv (Nat.pow_le_pow_right (by decide) (by omega)))
      simp [hbit]
  · have hlt : i < k := by omega
    simp [hi, hlt]

theorem roundDown_eq (ha : hasSingleBit alignment) (hle : alignment < 2 ^ 64)
    (hv : value < 2 ^ 64) :
    roundDown value alignment = value / alignment * alignment := by
  obtain ⟨k, rfl⟩ := hasSingleBit_iff.mp ha
  exact and_complement
    ((Nat.pow_le_pow_iff_right (by decide)).mp (Nat.le_of_lt hle)) hv

theorem roundDown_le (value alignment : Nat) :
    roundDown value alignment ≤ value :=
  Nat.and_le_left

theorem dvd_roundDown (ha : hasSingleBit alignment)
    (hle : alignment < 2 ^ 64) (hv : value < 2 ^ 64) :
    alignment ∣ roundDown value alignment := by
  rw [roundDown_eq ha hle hv]
  exact Nat.dvd_mul_left alignment _

/-- Rounding down does not cross a multiple. -/
theorem le_roundDown_of_dvd {c : Nat} (ha : hasSingleBit alignment)
    (hle : alignment < 2 ^ 64) (hv : value < 2 ^ 64) (hc : alignment ∣ c)
    (h : c ≤ value) : c ≤ roundDown value alignment := by
  rw [roundDown_eq ha hle hv]
  calc c = c / alignment * alignment := (Nat.div_mul_cancel hc).symm
    _ ≤ value / alignment * alignment :=
        Nat.mul_le_mul_right _ (Nat.div_le_div_right h)

theorem roundUp_eq (ha : hasSingleBit alignment) (hle : alignment < 2 ^ 64)
    (hv : value ≤ sizeMax - (alignment - 1)) :
    roundUp value alignment =
      (value + (alignment - 1)) / alignment * alignment := by
  have hlt : value + (alignment - 1) < 2 ^ 64 := by
    unfold sizeMax at hv
    omega
  exact roundDown_eq ha hle hlt

theorem dvd_roundUp (ha : hasSingleBit alignment) (hle : alignment < 2 ^ 64)
    (hv : value ≤ sizeMax - (alignment - 1)) :
    alignment ∣ roundUp value alignment := by
  rw [roundUp_eq ha hle hv]
  exact Nat.dvd_mul_left alignment _

theorem le_roundUp (ha : hasSingleBit alignment) (hle : alignment < 2 ^ 64)
    (hv : value ≤ sizeMax - (alignment - 1)) :
    value ≤ roundUp value alignment := by
  have hpos := hasSingleBit_pos ha
  have hdiv := Nat.div_add_mod (value + (alignment - 1)) alignment
  have hmod := Nat.mod_lt (value + (alignment - 1)) hpos
  rw [roundUp_eq ha hle hv, Nat.mul_comm]
  omega

/-- Rounding up does not cross a multiple. -/
theorem roundUp_le_of_dvd {c : Nat} (ha : hasSingleBit alignment)
    (hle : alignment < 2 ^ 64) (hv : value ≤ sizeMax - (alignment - 1))
    (hc : alignment ∣ c) (h : value ≤ c) : roundUp value alignment ≤ c := by
  have hpos := hasSingleBit_pos ha
  obtain ⟨n, rfl⟩ := hc
  rw [roundUp_eq ha hle hv, Nat.mul_comm]
  apply Nat.mul_le_mul_left
  apply Nat.le_of_lt_succ
  apply (Nat.div_lt_iff_lt_mul hpos).mpr
  calc value + (alignment - 1) < alignment * n + alignment := by omega
    _ = n.succ * alignment := by rw [Nat.succ_mul, Nat.mul_comm]

theorem roundUp_lt (ha : hasSingleBit alignment) (hle : alignment < 2 ^ 64)
    (hv : value ≤ sizeMax - (alignment - 1)) :
    roundUp value alignment < 2 ^ 64 := by
  have hpos := hasSingleBit_pos ha
  have hmul := Nat.div_mul_le_self (value + (alignment - 1)) alignment
  rw [roundUp_eq ha hle hv]
  unfold sizeMax at hv
  omega

end Rounding

end CloverVM.Machine
