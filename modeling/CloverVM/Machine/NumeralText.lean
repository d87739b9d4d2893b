import Mathlib

/-!
# Numerals as text

A numeral is a run of digits with single underscores between them.  The
grammar takes the class of digits as a parameter, so that it serves every
base, and the number of a numeral is computed from the left.  A number is
printed in base ten, or in chunks of a fixed width below a leading chunk.
-/

namespace CloverVM.Machine.NumeralText

/-- What may follow a digit: digits, each after at most one underscore. -/
inductive AfterDigit (isDigit : Char → Bool) : List Char → Prop
  | nil : AfterDigit isDigit []
  | digit {c : Char} {s : List Char} (hDigit : isDigit c = true)
      (hRest : AfterDigit isDigit s) : AfterDigit isDigit (c :: s)
  | underscore {c : Char} {s : List Char} (hDigit : isDigit c = true)
      (hRest : AfterDigit isDigit s) : AfterDigit isDigit ('_' :: c :: s)

/-- A digit and what may follow it. -/
def DigitRun (isDigit : Char → Bool) (s : List Char) : Prop :=
  ∃ c t, s = c :: t ∧ isDigit c = true ∧ AfterDigit isDigit t

section Grammar

variable {isDigit : Char → Bool}

theorem not_digitRun_nil : ¬ DigitRun isDigit [] := by
  rintro ⟨c, t, hNil, -⟩
  cases hNil

theorem digitRun_cons_iff {c : Char} {s : List Char} :
    DigitRun isDigit (c :: s) ↔ isDigit c = true ∧ AfterDigit isDigit s := by
  constructor
  · rintro ⟨d, t, hCons, hDigit, hRest⟩
    cases hCons
    exact ⟨hDigit, hRest⟩
  · rintro ⟨hDigit, hRest⟩
    exact ⟨c, s, rfl, hDigit, hRest⟩

theorem afterDigit_cons_iff {c : Char} {s : List Char} :
    AfterDigit isDigit (c :: s) ↔
      isDigit c = true ∧ AfterDigit isDigit s ∨
        c = '_' ∧ DigitRun isDigit s := by
  constructor
  · intro h
    cases h with
    | digit hDigit hRest => exact Or.inl ⟨hDigit, hRest⟩
    | underscore hDigit hRest =>
        exact Or.inr ⟨rfl, _, _, rfl, hDigit, hRest⟩
  · rintro (⟨hDigit, hRest⟩ | ⟨rfl, d, t, rfl, hDigit, hRest⟩)
    · exact .digit hDigit hRest
    · exact .underscore hDigit hRest

/-- A numeral consists of digits and underscores. -/
theorem AfterDigit.forall_mem {s : List Char} (h : AfterDigit isDigit s) :
    ∀ c ∈ s, isDigit c = true ∨ c = '_' := by
  induction h with
  | nil => exact fun c hc => absurd hc List.not_mem_nil
  | digit hDigit _ ih =>
      intro c hc
      rcases List.mem_cons.mp hc with rfl | hRest
      · exact Or.inl hDigit
      · exact ih c hRest
  | underscore hDigit _ ih =>
      intro c hc
      rcases List.mem_cons.mp hc with rfl | hNext
      · exact Or.inr rfl
      rcases List.mem_cons.mp hNext with rfl | hRest
      · exact Or.inl hDigit
      · exact ih c hRest

theorem DigitRun.forall_mem {s : List Char} (h : DigitRun isDigit s) :
    ∀ c ∈ s, isDigit c = true ∨ c = '_' := by
  obtain ⟨d, t, rfl, hDigit, hRest⟩ := h
  exact (AfterDigit.digit hDigit hRest).forall_mem

theorem AfterDigit.mono {isDigit' : Char → Bool} {s : List Char}
    (h : AfterDigit isDigit s)
    (hDigits : ∀ c, isDigit c = true → isDigit' c = true) :
    AfterDigit isDigit' s := by
  induction h with
  | nil => exact .nil
  | digit hDigit _ ih => exact .digit (hDigits _ hDigit) ih
  | underscore hDigit _ ih => exact .underscore (hDigits _ hDigit) ih

theorem afterDigit_of_forall {s : List Char} (h : ∀ c ∈ s, isDigit c = true) :
    AfterDigit isDigit s := by
  induction s with
  | nil => exact .nil
  | cons c s ih =>
      exact .digit (h c List.mem_cons_self)
        (ih fun d hd => h d (List.mem_cons_of_mem c hd))

theorem digitRun_of_forall {s : List Char} (hne : s ≠ [])
    (h : ∀ c ∈ s, isDigit c = true) : DigitRun isDigit s := by
  cases s with
  | nil => exact absurd rfl hne
  | cons c s =>
      exact digitRun_cons_iff.mpr ⟨h c List.mem_cons_self,
        afterDigit_of_forall fun d hd => h d (List.mem_cons_of_mem c hd)⟩

end Grammar

/-- The value of a digit of a base up to sixteen. -/
def digitValue (c : Char) : Nat :=
  if c.isDigit then c.toNat - '0'.toNat
  else if 'a' ≤ c ∧ c ≤ 'f' then c.toNat - 'a'.toNat + 10
  else c.toNat - 'A'.toNat + 10

/-- The number whose digits so far are `n`, after the digits of the text. -/
def numeral (base : Nat) (text : List Char) (n : Nat) : Nat :=
  text.foldl (fun n c => if c = '_' then n else base * n + digitValue c) n

variable {base : Nat}

@[simp] theorem numeral_nil (n : Nat) : numeral base [] n = n := rfl

theorem numeral_underscore (s : List Char) (n : Nat) :
    numeral base ('_' :: s) n = numeral base s n := rfl

theorem numeral_digit {c : Char} (hc : c ≠ '_') (s : List Char) (n : Nat) :
    numeral base (c :: s) n = numeral base s (base * n + digitValue c) := by
  simp [numeral, hc]

theorem isDigit_ne_underscore {c : Char} (hc : c.isDigit = true) :
    c ≠ '_' := by
  rintro rfl
  exact absurd hc (by decide)

/-- On plain decimal digits the number is the library's. -/
theorem numeral_eq_ofDigitChars {s : List Char}
    (h : ∀ c ∈ s, c.isDigit = true) (n : Nat) :
    numeral 10 s n = Nat.ofDigitChars 10 s n := by
  induction s generalizing n with
  | nil => simp
  | cons c s ih =>
      have hDigit := h c List.mem_cons_self
      have hValue : digitValue c = c.toNat - '0'.toNat := if_pos hDigit
      rw [numeral_digit (isDigit_ne_underscore hDigit), hValue,
        Nat.ofDigitChars_cons]
      exact ih (fun d hd => h d (List.mem_cons_of_mem c hd)) _

/-! ## Printed numbers -/

theorem isDigit_of_mem_toDigits {n : Nat} :
    ∀ c ∈ Nat.toDigits 10 n, c.isDigit = true :=
  fun _ hc => Nat.isDigit_of_mem_toDigits (by decide) (by decide) hc

theorem numeral_toDigits (n : Nat) : numeral 10 (Nat.toDigits 10 n) 0 = n := by
  rw [numeral_eq_ofDigitChars isDigit_of_mem_toDigits,
    Nat.ofDigitChars_ten_toDigits]

/-- A number printed in a fixed width. -/
def padded (width n : Nat) : List Char :=
  List.replicate (width - (Nat.toDigits 10 n).length) '0' ++
    Nat.toDigits 10 n

theorem length_toDigits_le {width n : Nat} (hWidth : 0 < width)
    (h : n < 10 ^ width) : (Nat.toDigits 10 n).length ≤ width :=
  (Nat.length_toDigits_le_iff (by decide) hWidth).mpr h

theorem padded_one {n : Nat} (h : n < 10) : padded 1 n = [n.digitChar] := by
  rw [padded, Nat.toDigits_of_lt_base h]
  rfl

/-- The last digit of a padded number. -/
theorem padded_succ {width n : Nat} (hWidth : 0 < width) :
    padded (width + 1) n =
      padded width (n / 10) ++ [(n % 10).digitChar] := by
  obtain hSmall | hLarge := Nat.lt_or_ge n 10
  · obtain ⟨k, rfl⟩ : ∃ k, width = k + 1 := ⟨width - 1, by omega⟩
    have hDiv : n / 10 = 0 := by omega
    have hMod : n % 10 = n := by omega
    rw [padded, padded, hDiv, hMod, Nat.toDigits_of_lt_base hSmall,
      Nat.toDigits_zero, ← List.replicate_succ']
    rfl
  · rw [padded, padded, Nat.toDigits_of_base_le (by decide) hLarge,
      List.length_append, List.length_singleton, Nat.add_sub_add_right,
      List.append_assoc]

/-- A padded number behind the digits of a greater one. -/
theorem toDigits_append_padded {width high : Nat} (hWidth : 0 < width)
    (hHigh : 0 < high) {n : Nat} (h : n < 10 ^ width) :
    Nat.toDigits 10 high ++ padded width n =
      Nat.toDigits 10 (10 ^ width * high + n) := by
  induction width, hWidth using Nat.le_induction generalizing n with
  | base =>
      rw [Nat.pow_one] at h
      rw [padded_one h, ← Nat.toDigits_of_lt_base h,
        Nat.toDigits_append_toDigits (by decide) hHigh h, Nat.pow_one]
  | succ width hWidth ih =>
      have hSplit : 10 ^ (width + 1) * high + n =
          10 * (10 ^ width * high + n / 10) + n % 10 := by
        rw [Nat.pow_succ', Nat.mul_add, ← Nat.mul_assoc]
        omega
      have hPos : 0 < 10 ^ width * high + n / 10 :=
        Nat.add_pos_left (Nat.mul_pos (Nat.pow_pos (by decide)) hHigh) _
      have hDigit : n % 10 < 10 := Nat.mod_lt n (by decide)
      rw [padded_succ hWidth, ← List.append_assoc,
        ih (by rw [Nat.pow_succ] at h; omega), hSplit,
        ← Nat.toDigits_append_toDigits (by decide) hPos hDigit,
        Nat.toDigits_of_lt_base hDigit]

/-- A printed number does not start with a zero, but for zero itself. -/
theorem toDigits_no_leading_zero {n : Nat} (hPos : 0 < n) :
    (Nat.toDigits 10 n).head? ≠ some '0' := by
  induction n using Nat.strong_induction_on with
  | _ n ih =>
      rw [Nat.toDigits_eq_if (by decide)]
      split
      · rename_i hSmall
        rw [List.head?_cons, Ne, Option.some.injEq, Nat.digitChar_eq_zero]
        exact hPos.ne'
      · rename_i hLarge
        have hHigh := ih (n / 10) (by omega) (by omega)
        rwa [List.head?_append_of_ne_nil _ Nat.toDigits_ne_nil]

end CloverVM.Machine.NumeralText
