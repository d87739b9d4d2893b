import Mathlib

/-!
# Well-formed UTF-8

The byte sequences that Unicode calls well formed, written as its table of
byte ranges, and their meaning: a well-formed sequence is the encoding of one
scalar value, and a well-formed string the encoding of one list of them.  The
encoding of a scalar value is the standard one, `String.utf8EncodeChar`.
-/

namespace CloverVM.Machine.Utf8

/-- A byte after the first of its sequence. -/
def Continuation (b : UInt8) : Prop := 0x80 ≤ b.toNat ∧ b.toNat ≤ 0xbf

/-- The table of well-formed sequences, one constructor a length.  The bounds
on the second byte keep out overlong forms, surrogates and what lies above
U+10FFFF. -/
inductive Sequence : List UInt8 → Prop
  | one {a : UInt8} (ha : a.toNat ≤ 0x7f) : Sequence [a]
  | two {a b : UInt8} (ha : 0xc2 ≤ a.toNat ∧ a.toNat ≤ 0xdf)
      (hb : Continuation b) : Sequence [a, b]
  | three {a b c : UInt8} (ha : 0xe0 ≤ a.toNat ∧ a.toNat ≤ 0xef)
      (hb : Continuation b) (hOverlong : a.toNat = 0xe0 → 0xa0 ≤ b.toNat)
      (hSurrogate : a.toNat = 0xed → b.toNat ≤ 0x9f)
      (hc : Continuation c) : Sequence [a, b, c]
  | four {a b c d : UInt8} (ha : 0xf0 ≤ a.toNat ∧ a.toNat ≤ 0xf4)
      (hb : Continuation b) (hOverlong : a.toNat = 0xf0 → 0x90 ≤ b.toNat)
      (hAbove : a.toNat = 0xf4 → b.toNat ≤ 0x8f)
      (hc : Continuation c) (hd : Continuation d) : Sequence [a, b, c, d]

/-- A string of well-formed sequences, with nothing left over. -/
inductive WellFormed : List UInt8 → Prop
  | nil : WellFormed []
  | cons {s rest : List UInt8} (head : Sequence s) (tail : WellFormed rest) :
      WellFormed (s ++ rest)

/-! ## The bytes of a scalar value -/

section Encoding

open String (utf8EncodeChar)

theorem toNat_valid (c : Char) :
    c.toNat < 0xd800 ∨ 0xdfff < c.toNat ∧ c.toNat < 0x110000 := c.valid

/-- The standard encoding, by the value's size. -/
theorem encodeChar_sizes (c : Char) :
    utf8EncodeChar c =
      if c.toNat ≤ 0x7f then [UInt8.ofNat c.toNat]
      else if c.toNat ≤ 0x7ff then
        [UInt8.ofNat (c.toNat / 64 % 0x20 + 0xc0),
          UInt8.ofNat (c.toNat % 64 + 0x80)]
      else if c.toNat ≤ 0xffff then
        [UInt8.ofNat (c.toNat / 4096 % 0x10 + 0xe0),
          UInt8.ofNat (c.toNat / 64 % 64 + 0x80),
          UInt8.ofNat (c.toNat % 64 + 0x80)]
      else
        [UInt8.ofNat (c.toNat / 262144 % 0x08 + 0xf0),
          UInt8.ofNat (c.toNat / 4096 % 64 + 0x80),
          UInt8.ofNat (c.toNat / 64 % 64 + 0x80),
          UInt8.ofNat (c.toNat % 64 + 0x80)] := rfl

theorem encodeChar_one {c : Char} (h : c.toNat ≤ 0x7f) :
    utf8EncodeChar c = [UInt8.ofNat c.toNat] := by
  rw [encodeChar_sizes, if_pos h]

theorem encodeChar_two {c : Char} (hLow : 0x7f < c.toNat)
    (hHigh : c.toNat ≤ 0x7ff) :
    utf8EncodeChar c =
      [UInt8.ofNat (c.toNat / 64 + 0xc0),
        UInt8.ofNat (c.toNat % 64 + 0x80)] := by
  have hLead : c.toNat / 64 % 0x20 = c.toNat / 64 := by omega
  rw [encodeChar_sizes, if_neg (by omega), if_pos hHigh, hLead]

theorem encodeChar_three {c : Char} (hLow : 0x7ff < c.toNat)
    (hHigh : c.toNat ≤ 0xffff) :
    utf8EncodeChar c =
      [UInt8.ofNat (c.toNat / 4096 + 0xe0),
        UInt8.ofNat (c.toNat / 64 % 64 + 0x80),
        UInt8.ofNat (c.toNat % 64 + 0x80)] := by
  have hLead : c.toNat / 4096 % 0x10 = c.toNat / 4096 := by omega
  rw [encodeChar_sizes, if_neg (by omega), if_neg (by omega), if_pos hHigh,
    hLead]

theorem encodeChar_four {c : Char} (hLow : 0xffff < c.toNat) :
    utf8EncodeChar c =
      [UInt8.ofNat (c.toNat / 262144 + 0xf0),
        UInt8.ofNat (c.toNat / 4096 % 64 + 0x80),
        UInt8.ofNat (c.toNat / 64 % 64 + 0x80),
        UInt8.ofNat (c.toNat % 64 + 0x80)] := by
  have hValid := toNat_valid c
  have hLead : c.toNat / 262144 % 0x08 = c.toNat / 262144 := by omega
  rw [encodeChar_sizes, if_neg (by omega), if_neg (by omega),
    if_neg (by omega), hLead]

theorem ofNat_eq {b : UInt8} {n : Nat} (h : n = b.toNat) :
    UInt8.ofNat n = b := by
  rw [h, UInt8.ofNat_toNat]

theorem encodeChar_eq_one {c : Char} {a : UInt8} (ha : a.toNat ≤ 0x7f)
    (hValue : c.toNat = a.toNat) : utf8EncodeChar c = [a] := by
  rw [encodeChar_one (by omega), ofNat_eq hValue]

theorem encodeChar_eq_two {c : Char} {a b : UInt8} (ha : 0xc0 ≤ a.toNat)
    (hb : Continuation b)
    (hValue : c.toNat = (a.toNat - 0xc0) * 64 + (b.toNat - 0x80))
    (hLow : 0x7f < c.toNat) (hHigh : c.toNat ≤ 0x7ff) :
    utf8EncodeChar c = [a, b] := by
  obtain ⟨hbLow, hbHigh⟩ := hb
  rw [encodeChar_two hLow hHigh, ofNat_eq (b := a) (by omega),
    ofNat_eq (b := b) (by omega)]

theorem encodeChar_eq_three {c : Char} {a b d : UInt8} (ha : 0xe0 ≤ a.toNat)
    (hb : Continuation b) (hd : Continuation d)
    (hValue : c.toNat =
      ((a.toNat - 0xe0) * 64 + (b.toNat - 0x80)) * 64 + (d.toNat - 0x80))
    (hLow : 0x7ff < c.toNat) (hHigh : c.toNat ≤ 0xffff) :
    utf8EncodeChar c = [a, b, d] := by
  obtain ⟨hbLow, hbHigh⟩ := hb
  obtain ⟨hdLow, hdHigh⟩ := hd
  rw [encodeChar_three hLow hHigh, ofNat_eq (b := a) (by omega),
    ofNat_eq (b := b) (by omega), ofNat_eq (b := d) (by omega)]

theorem encodeChar_eq_four {c : Char} {a b d e : UInt8}
    (ha : 0xf0 ≤ a.toNat) (hb : Continuation b) (hd : Continuation d)
    (he : Continuation e)
    (hValue : c.toNat =
      (((a.toNat - 0xf0) * 64 + (b.toNat - 0x80)) * 64 +
        (d.toNat - 0x80)) * 64 + (e.toNat - 0x80))
    (hLow : 0xffff < c.toNat) :
    utf8EncodeChar c = [a, b, d, e] := by
  obtain ⟨hbLow, hbHigh⟩ := hb
  obtain ⟨hdLow, hdHigh⟩ := hd
  obtain ⟨heLow, heHigh⟩ := he
  rw [encodeChar_four hLow, ofNat_eq (b := a) (by omega),
    ofNat_eq (b := b) (by omega), ofNat_eq (b := d) (by omega),
    ofNat_eq (b := e) (by omega)]

/-- A low value in a byte is itself. -/
theorem toNat_ofNat {n : Nat} (h : n < 256) : (UInt8.ofNat n).toNat = n :=
  UInt8.toNat_ofNat_of_lt h

/-- The last six bits of a value in a continuation byte. -/
theorem continuation_ofNat {n : Nat} (h : n < 64) :
    Continuation (UInt8.ofNat (n + 0x80)) := by
  unfold Continuation
  rw [toNat_ofNat (by omega)]
  omega

/-- Every scalar value is encoded by a sequence of the table. -/
theorem sequence_encodeChar (c : Char) : Sequence (utf8EncodeChar c) := by
  have hValid := toNat_valid c
  have hLast := continuation_ofNat (n := c.toNat % 64) (by omega)
  have hMiddle := continuation_ofNat (n := c.toNat / 64 % 64) (by omega)
  by_cases hOne : c.toNat ≤ 0x7f
  · rw [encodeChar_one hOne]
    refine .one ?_
    rw [toNat_ofNat (by omega)]
    exact hOne
  by_cases hTwo : c.toNat ≤ 0x7ff
  · rw [encodeChar_two (by omega) hTwo]
    refine .two ?_ hLast
    rw [toNat_ofNat (by omega)]
    omega
  by_cases hThree : c.toNat ≤ 0xffff
  · rw [encodeChar_three (by omega) hThree]
    refine .three ?_ hMiddle ?_ ?_ hLast
    all_goals
      rw [toNat_ofNat (n := c.toNat / 4096 + 0xe0) (by omega)]
    · omega
    all_goals
      rw [toNat_ofNat (by omega)]
      omega
  · rw [encodeChar_four (by omega)]
    refine .four ?_ (continuation_ofNat (by omega)) ?_ ?_ hMiddle hLast
    all_goals
      rw [toNat_ofNat (n := c.toNat / 262144 + 0xf0) (by omega)]
    · omega
    all_goals
      rw [toNat_ofNat (by omega)]
      omega

/-- The scalar value a number stands for. -/
theorem exists_char {n : Nat}
    (h : n < 0xd800 ∨ 0xdfff < n ∧ n < 0x110000) :
    ∃ c : Char, c.toNat = n := by
  have hSize : n < 2 ^ 32 := by omega
  refine ⟨⟨UInt32.ofNat n, ?_⟩, ?_⟩
  · show (UInt32.ofNat n).toNat < 0xd800 ∨ 0xdfff < (UInt32.ofNat n).toNat ∧
      (UInt32.ofNat n).toNat < 0x110000
    rw [UInt32.toNat_ofNat_of_lt' hSize]
    exact h
  · exact UInt32.toNat_ofNat_of_lt' hSize

/-- Every sequence of the table encodes a scalar value. -/
theorem exists_char_of_sequence {s : List UInt8} (h : Sequence s) :
    ∃ c : Char, utf8EncodeChar c = s := by
  cases h with
  | @one a ha =>
      obtain ⟨c, hc⟩ := exists_char (n := a.toNat) (by omega)
      exact ⟨c, encodeChar_eq_one ha hc⟩
  | @two a b ha hb =>
      have ⟨hbLow, hbHigh⟩ := hb
      obtain ⟨c, hc⟩ := exists_char
        (n := (a.toNat - 0xc0) * 64 + (b.toNat - 0x80)) (by omega)
      exact ⟨c, encodeChar_eq_two (by omega) hb hc (by omega) (by omega)⟩
  | @three a b d ha hb hOverlong hSurrogate hd =>
      have ⟨hbLow, hbHigh⟩ := hb
      have ⟨hdLow, hdHigh⟩ := hd
      obtain ⟨c, hc⟩ := exists_char
        (n := ((a.toNat - 0xe0) * 64 + (b.toNat - 0x80)) * 64 +
          (d.toNat - 0x80)) (by omega)
      exact ⟨c, encodeChar_eq_three (by omega) hb hd hc (by omega) (by omega)⟩
  | @four a b d e ha hb hOverlong hAbove hd he =>
      have ⟨hbLow, hbHigh⟩ := hb
      have ⟨hdLow, hdHigh⟩ := hd
      have ⟨heLow, heHigh⟩ := he
      obtain ⟨c, hc⟩ := exists_char
        (n := (((a.toNat - 0xf0) * 64 + (b.toNat - 0x80)) * 64 +
          (d.toNat - 0x80)) * 64 + (e.toNat - 0x80)) (by omega)
      exact ⟨c, encodeChar_eq_four (by omega) hb hd he hc (by omega)⟩

/-- **Meaning of the table**: well-formed strings are encoded texts. -/
theorem wellFormed_iff_exists_chars {bytes : List UInt8} :
    WellFormed bytes ↔ ∃ t : List Char, bytes = t.flatMap utf8EncodeChar := by
  constructor
  · intro h
    induction h with
    | nil => exact ⟨[], rfl⟩
    | cons head tail ih =>
        obtain ⟨c, rfl⟩ := exists_char_of_sequence head
        obtain ⟨t, rfl⟩ := ih
        exact ⟨c :: t, by rw [List.flatMap_cons]⟩
  · rintro ⟨t, rfl⟩
    induction t with
    | nil => exact .nil
    | cons c t ih =>
        rw [List.flatMap_cons]
        exact .cons (sequence_encodeChar c) ih

end Encoding

end CloverVM.Machine.Utf8
