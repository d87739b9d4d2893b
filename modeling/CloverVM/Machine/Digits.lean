import Mathlib.Data.Nat.Digits.Lemmas
import Mathlib.Data.List.DropRight

/-!
# Little-endian strings of machine digits

A natural number held in an array of `w`-bit digits, the least significant
first.  `value` is the number; its algebra is that of `Nat.ofDigits` at the
base `2 ^ w`, where no digit can reach the base.  A string is trimmed when
its top digit is not zero; `trim` drops the zero digits at the top.
-/

namespace CloverVM.Machine.Digits

variable {w : Nat}

/-- The number of a string of digits. -/
def value (ds : List (BitVec w)) : Nat :=
  Nat.ofDigits (2 ^ w) (ds.map BitVec.toNat)

@[simp] theorem value_nil : value ([] : List (BitVec w)) = 0 := rfl

@[simp] theorem value_cons (d : BitVec w) (ds : List (BitVec w)) :
    value (d :: ds) = d.toNat + 2 ^ w * value ds := by
  simp [value, Nat.ofDigits_cons]

theorem value_append (xs ys : List (BitVec w)) :
    value (xs ++ ys) = value xs + (2 ^ w) ^ xs.length * value ys := by
  simp [value, Nat.ofDigits_append]

theorem value_take_add_drop (ds : List (BitVec w)) (i : Nat)
    (hi : i ≤ ds.length) :
    value (ds.take i) + (2 ^ w) ^ i * value (ds.drop i) = value ds := by
  have hSplit := value_append (ds.take i) (ds.drop i)
  rw [List.take_append_drop, List.length_take, Nat.min_eq_left hi] at hSplit
  exact hSplit.symm

@[simp] theorem value_replicate_zero (n : Nat) :
    value (List.replicate n (0 : BitVec w)) = 0 := by
  induction n with
  | zero => rfl
  | succ n ih => rw [List.replicate_succ, value_cons, ih]; simp

theorem value_lt (ds : List (BitVec w)) : value ds < (2 ^ w) ^ ds.length := by
  induction ds with
  | nil => simp
  | cons d ds ih =>
      have hDigit := d.isLt
      rw [value_cons, List.length_cons, Nat.pow_succ, Nat.mul_comm _ (2 ^ w)]
      have hTail : 2 ^ w * (value ds + 1) ≤ 2 ^ w * (2 ^ w) ^ ds.length :=
        Nat.mul_le_mul_left _ ih
      rw [Nat.mul_add] at hTail
      omega

theorem toNat_eq_zero_iff (d : BitVec w) : d.toNat = 0 ↔ d = 0 := by
  rw [BitVec.toNat_eq]
  simp

/-- The number above the lowest places. -/
theorem value_drop_eq_div {ds : List (BitVec w)} {i : Nat}
    (hi : i ≤ ds.length) : value (ds.drop i) = value ds / (2 ^ w) ^ i := by
  have hSplit := value_take_add_drop ds i hi
  have hLow := value_lt (ds.take i)
  rw [List.length_take, Nat.min_eq_left hi] at hLow
  have hBase : 0 < (2 ^ w) ^ i := by positivity
  exact ((Nat.div_mod_unique hBase).mpr ⟨hSplit, hLow⟩).1.symm

/-- A string with no digit but zeros is zero, and no other one is. -/
theorem value_eq_zero_iff (ds : List (BitVec w)) :
    value ds = 0 ↔ ∀ d ∈ ds, d = 0 := by
  induction ds with
  | nil => simp
  | cons d ds ih =>
      have hDigit : d.toNat = 0 ↔ d = 0 := toNat_eq_zero_iff d
      rw [value_cons, Nat.add_eq_zero_iff, Nat.mul_eq_zero, ih, hDigit,
        List.forall_mem_cons]
      have hBase : ¬ 2 ^ w = 0 := by positivity
      tauto

/-- Strings of one length are equal when their numbers are. -/
theorem eq_of_value_eq_of_length_eq {xs ys : List (BitVec w)}
    (hLength : xs.length = ys.length) (h : value xs = value ys) :
    xs = ys := by
  induction xs generalizing ys with
  | nil => exact (List.length_eq_zero_iff.mp hLength.symm).symm
  | cons x xs ih =>
      cases ys with
      | nil => simp at hLength
      | cons y ys =>
          rw [value_cons, value_cons] at h
          have hx := x.isLt
          have hy := y.isLt
          have hHead : x.toNat = y.toNat := by
            have hMod := congrArg (· % 2 ^ w) h
            simpa [Nat.add_mul_mod_self_left, Nat.mod_eq_of_lt hx,
              Nat.mod_eq_of_lt hy] using hMod
          have hTail : value xs = value ys := by
            rw [hHead] at h
            have hBase : 0 < 2 ^ w := by positivity
            exact Nat.eq_of_mul_eq_mul_left hBase (Nat.add_left_cancel h)
          rw [BitVec.eq_of_toNat_eq hHead,
            ih (Nat.succ.inj hLength) hTail]

/-- The weight of the next place, as the digits below it need it. -/
theorem base_pow_succ_mul (w n c : Nat) :
    (2 ^ w) ^ (n + 1) * c = 2 ^ w * ((2 ^ w) ^ n * c) := by
  rw [Nat.pow_succ, Nat.mul_comm _ (2 ^ w), Nat.mul_assoc]

/-- The lowest digit and the rest; past the end the digit reads as zero. -/
theorem value_headD_tail (ds : List (BitVec w)) :
    (ds.headD 0).toNat + 2 ^ w * value ds.tail = value ds := by
  cases ds with
  | nil => simp
  | cons d ds => simp

/-- The digit at a place and what lies above it. -/
theorem value_drop (ds : List (BitVec w)) (i : Nat) (hi : i < ds.length) :
    value (ds.drop i) = (ds.getD i 0).toNat + 2 ^ w * value (ds.drop (i + 1)) := by
  rw [List.drop_eq_getElem_cons hi, value_cons, List.getD_eq_getElem?_getD,
    List.getElem?_eq_getElem hi, Option.getD_some]

/-- The low digit of a number and what is carried on. -/
theorem toNat_ofNat_add_shiftRight (n : Nat) :
    (BitVec.ofNat w n).toNat + 2 ^ w * (n >>> w) = n := by
  rw [BitVec.toNat_ofNat, Nat.shiftRight_eq_div_pow]
  exact Nat.mod_add_div n (2 ^ w)

/-! ## Trimmed strings -/

/-- The top digit is not zero. -/
def Trimmed (ds : List (BitVec w)) : Prop := ds.getLast? ≠ some 0

instance (ds : List (BitVec w)) : Decidable (Trimmed ds) :=
  inferInstanceAs (Decidable (_ ≠ _))

/-- The string without the zero digits at its top. -/
def trim (ds : List (BitVec w)) : List (BitVec w) := ds.rdropWhile (· == 0)

@[simp] theorem trimmed_nil : Trimmed ([] : List (BitVec w)) := nofun

theorem trimmed_append_singleton (ds : List (BitVec w)) {d : BitVec w} :
    Trimmed (ds ++ [d]) ↔ d ≠ 0 := by
  simp [Trimmed]

theorem trimmed_append (xs : List (BitVec w)) {ys : List (BitVec w)} (h : Trimmed ys)
    (hne : ys ≠ []) : Trimmed (xs ++ ys) := by
  rw [← List.dropLast_append_getLast hne, ← List.append_assoc]
  refine (trimmed_append_singleton _).mpr fun hZero => h ?_
  rw [List.getLast?_eq_some_getLast hne, hZero]

theorem trimmed_trim (ds : List (BitVec w)) : Trimmed (trim ds) := by
  intro hLast
  have hne : trim ds ≠ [] := by
    intro hNil
    rw [hNil] at hLast
    cases hLast
  have hNot := List.rdropWhile_last_not (· == (0 : BitVec w)) ds hne
  rw [List.getLast?_eq_some_getLast hne, Option.some.injEq] at hLast
  exact hNot (beq_iff_eq.mpr hLast)

/-- What trimming drops is zeros. -/
theorem trim_append_replicate (ds : List (BitVec w)) :
    trim ds ++ List.replicate (ds.length - (trim ds).length) 0 = ds := by
  have hSplit := List.rdropWhile_append_rtakeWhile (p := (· == (0 : BitVec w)))
    (l := ds)
  have hZeros : ds.rtakeWhile (· == (0 : BitVec w)) =
      List.replicate (ds.length - (trim ds).length) 0 := by
    refine List.eq_replicate_iff.mpr ⟨?_, fun d hd => ?_⟩
    · have hLength := congrArg List.length hSplit
      rw [List.length_append] at hLength
      exact (Nat.sub_eq_of_eq_add' hLength.symm).symm
    · have hZero := List.mem_rtakeWhile_imp (p := (· == (0 : BitVec w))) hd
      exact eq_of_beq hZero
  rw [← hZeros]
  exact hSplit

theorem length_trim_le (ds : List (BitVec w)) :
    (trim ds).length ≤ ds.length :=
  (List.rdropWhile_prefix (· == (0 : BitVec w)) ds).length_le

theorem value_trim (ds : List (BitVec w)) : value (trim ds) = value ds := by
  conv_rhs => rw [← trim_append_replicate ds]
  rw [value_append, value_replicate_zero, Nat.mul_zero, Nat.add_zero]

/-- A trimmed string is at least the weight of its top digit. -/
theorem pow_le_value {ds : List (BitVec w)} (h : Trimmed ds)
    (hne : ds ≠ []) : (2 ^ w) ^ (ds.length - 1) ≤ value ds := by
  have hSplit := List.dropLast_append_getLast hne
  have hLast : ds.getLast hne ≠ 0 := by
    intro hZero
    exact h (by rw [List.getLast?_eq_some_getLast hne, hZero])
  have hDigit : 1 ≤ (ds.getLast hne).toNat :=
    Nat.one_le_iff_ne_zero.mpr (mt (toNat_eq_zero_iff _).mp hLast)
  have hValue : value ds = value ds.dropLast +
      (2 ^ w) ^ (ds.length - 1) * (ds.getLast hne).toNat := by
    conv_lhs => rw [← hSplit]
    rw [value_append, List.length_dropLast, value_cons, value_nil,
      Nat.mul_zero, Nat.add_zero]
  calc (2 ^ w) ^ (ds.length - 1)
      ≤ (2 ^ w) ^ (ds.length - 1) * (ds.getLast hne).toNat :=
        Nat.le_mul_of_pos_right _ hDigit
    _ ≤ value ds := by omega

/-- A string whose number reaches the weight of its top place is trimmed. -/
theorem trimmed_of_pow_le_value {ds : List (BitVec w)}
    (h : (2 ^ w) ^ (ds.length - 1) ≤ value ds) : Trimmed ds := by
  intro hLast
  obtain ⟨low, rfl⟩ := List.getLast?_eq_some_iff.mp hLast
  have hLow := value_lt low
  rw [value_append, value_cons, List.length_append] at h
  simp at h
  omega

theorem value_pos {ds : List (BitVec w)} (h : Trimmed ds) (hne : ds ≠ []) :
    0 < value ds :=
  lt_of_lt_of_le (by positivity) (pow_le_value h hne)

/-- Of two strings the longer is the greater number, when it is trimmed. -/
theorem value_lt_value_of_length_lt {xs ys : List (BitVec w)}
    (hLength : xs.length < ys.length) (h : Trimmed ys) :
    value xs < value ys := by
  have hne : ys ≠ [] := by
    rintro rfl
    exact Nat.not_lt_zero _ hLength
  calc value xs < (2 ^ w) ^ xs.length := value_lt xs
    _ ≤ (2 ^ w) ^ (ys.length - 1) :=
        Nat.pow_le_pow_right (by positivity) (by omega)
    _ ≤ value ys := pow_le_value h hne

/-- A trimmed string below a power of the base is no longer than it. -/
theorem length_le_of_value_lt {ds : List (BitVec w)} {n : Nat}
    (h : Trimmed ds) (hValue : value ds < (2 ^ w) ^ n) :
    ds.length ≤ n := by
  by_contra hLong
  have hne : ds ≠ [] := by
    rintro rfl
    exact hLong (Nat.zero_le n)
  have hPow : (2 ^ w) ^ n ≤ (2 ^ w) ^ (ds.length - 1) :=
    Nat.pow_le_pow_right (by positivity) (by omega)
  have hTop := pow_le_value h hne
  omega

/-- A trimmed string is determined by its number. -/
theorem eq_of_value_eq {xs ys : List (BitVec w)} (hxs : Trimmed xs)
    (hys : Trimmed ys) (h : value xs = value ys) : xs = ys := by
  rcases Nat.lt_trichotomy xs.length ys.length with hLt | hEq | hGt
  · exact absurd h (value_lt_value_of_length_lt hLt hys).ne
  · exact eq_of_value_eq_of_length_eq hEq h
  · exact absurd h (value_lt_value_of_length_lt hGt hxs).ne'

end CloverVM.Machine.Digits
