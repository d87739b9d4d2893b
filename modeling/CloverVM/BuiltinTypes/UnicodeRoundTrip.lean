import CloverVM.BuiltinTypes.Unicode

/-!
# The UTF-8 codec and the standard encoding

One turn of the scan reads the encoding of one scalar value and takes no other
bytes, so a scan that ends has read an encoded text, and what it counts and
writes are the wide characters of that text.  Encoding walks the same text the
other way.
-/

namespace CloverVM.BuiltinTypes.Unicode

open CloverVM.Machine
open CloverVM.Machine.Utf8
open String (utf8EncodeChar)

/-- A property of bytes holds when it holds of the 256 values. -/
theorem forall_byte {P : UInt8 → Prop} (h : ∀ n < 256, P (UInt8.ofNat n))
    (b : UInt8) : P b := by
  have hb := h b.toNat b.toNat_lt
  rwa [UInt8.ofNat_toNat] at hb

theorem isContinuationByte_iff (b : UInt8) :
    isContinuationByte b = true ↔ Continuation b := by
  refine forall_byte (P := fun b => isContinuationByte b = true ↔
    0x80 ≤ b.toNat ∧ b.toNat ≤ 0xbf) ?_ b
  decide +kernel

/-- The lead bytes by their ranges. -/
theorem leadByte_ranges (first : UInt8) :
    leadByte first =
      if first.toNat ≤ 0x7f then some (UInt32.ofNat first.toNat, 0)
      else if first.toNat ≤ 0xbf then none
      else if first.toNat ≤ 0xdf then
        some (UInt32.ofNat (first.toNat - 0xc0), 1)
      else if first.toNat ≤ 0xef then
        some (UInt32.ofNat (first.toNat - 0xe0), 2)
      else if first.toNat ≤ 0xf7 then
        some (UInt32.ofNat (first.toNat - 0xf0), 3)
      else none := by
  revert first
  refine forall_byte ?_
  decide +kernel

/-- A value that fits 32 bits is kept. -/
theorem toNat_ofNat32 {n : Nat} (h : n < 2 ^ 32) :
    (UInt32.ofNat n).toNat = n := UInt32.toNat_ofNat_of_lt' h

/-- Six more bits below a value that leaves room for them. -/
theorem shift_or_continuation {v : Nat} {b : UInt8} (hv : v < 2 ^ 26)
    (hb : Continuation b) :
    (UInt32.ofNat v).shiftLeft 6 ||| (b &&& 0x3f).toUInt32 =
      UInt32.ofNat (v * 64 + (b.toNat - 0x80)) := by
  obtain ⟨hLow, hHigh⟩ := hb
  have hSix : (b &&& 0x3f).toUInt32.toNat = b.toNat - 0x80 := by
    rw [UInt8.toNat_toUInt32, UInt8.toNat_and]
    show b.toNat &&& (2 ^ 6 - 1) = _
    rw [Nat.and_two_pow_sub_one_eq_mod]
    omega
  have hShift : ((UInt32.ofNat v).shiftLeft 6).toNat = v <<< 6 := by
    show ((UInt32.ofNat v) <<< (6 : UInt32)).toNat = _
    rw [UInt32.toNat_shiftLeft, toNat_ofNat32 (by omega)]
    show v <<< 6 % 2 ^ 32 = v <<< 6
    rw [Nat.shiftLeft_eq]
    omega
  apply UInt32.toNat_inj.mp
  rw [UInt32.toNat_or, hShift, hSix,
    ← Nat.shiftLeft_add_eq_or_of_lt (by omega), Nat.shiftLeft_eq,
    toNat_ofNat32 (by omega)]

theorem continuationBytes_cons {n v : Nat} {b : UInt8} {src : List UInt8}
    (hv : v < 2 ^ 26) (hb : Continuation b) :
    continuationBytes (n + 1) (UInt32.ofNat v) (b :: src) =
      continuationBytes n (UInt32.ofNat (v * 64 + (b.toNat - 0x80))) src := by
  rw [continuationBytes, if_pos ((isContinuationByte_iff b).mpr hb),
    shift_or_continuation hv hb]

theorem exists_of_continuationBytes {n v : Nat} {src rest : List UInt8}
    {codepoint : UInt32} (hv : v < 2 ^ 26)
    (h : continuationBytes (n + 1) (UInt32.ofNat v) src =
      some (codepoint, rest)) :
    ∃ b src', src = b :: src' ∧ Continuation b ∧
      continuationBytes n (UInt32.ofNat (v * 64 + (b.toNat - 0x80))) src' =
        some (codepoint, rest) := by
  cases src with
  | nil => cases h
  | cons b src =>
      by_cases hb : isContinuationByte b = true
      · have hByte := (isContinuationByte_iff b).mp hb
        rw [continuationBytes_cons hv hByte] at h
        exact ⟨b, src, rfl, hByte, h⟩
      · rw [continuationBytes, if_neg hb] at h
        cases h

theorem continuationBytes_zero {codepoint codepoint' : UInt32}
    {src rest : List UInt8}
    (h : continuationBytes 0 codepoint src = some (codepoint', rest)) :
    codepoint' = codepoint ∧ rest = src := by
  simp only [continuationBytes, Option.some.injEq, Prod.mk.injEq] at h
  exact ⟨h.1.symm, h.2.symm⟩

theorem rejectedCodepoint_ofNat {n v : Nat} (hv : v < 2 ^ 32) :
    rejectedCodepoint n (UInt32.ofNat v) = false ↔
      (n = 1 → 0x80 ≤ v) ∧ (n = 2 → 0x800 ≤ v) ∧ (n = 3 → 0x10000 ≤ v) ∧
      (v < 0xd800 ∨ 0xdfff < v ∧ v < 0x110000) := by
  have hValue : (UInt32.ofNat v).toNat = v := toNat_ofNat32 hv
  simp only [rejectedCodepoint, Bool.or_eq_false_iff, Bool.and_eq_false_imp,
    beq_iff_eq, decide_eq_false_iff_not, decide_eq_true_eq, gt_iff_lt,
    ge_iff_le, UInt32.le_iff_toNat_le,
    UInt32.lt_iff_toNat_lt, hValue, UInt32.reduceToNat]
  omega

/-! ## One turn of the scan -/

theorem val_eq_ofNat (c : Char) : c.val = UInt32.ofNat c.toNat :=
  (UInt32.ofNat_toNat).symm

/-- A turn of the scan whose steps all go through. -/
theorem scanCodepoint_of_steps {first : UInt8} {src rest : List UInt8}
    {lead codepoint : UInt32} {n : Nat}
    (hLead : leadByte first = some (lead, n)) (hLength : n ≤ src.length)
    (hBytes : continuationBytes n lead src = some (codepoint, rest))
    (hKept : rejectedCodepoint n codepoint = false) :
    scanCodepoint first src = some (codepoint, rest) := by
  unfold scanCodepoint
  rw [bind_of_eq_some hLead]
  dsimp only
  rw [if_neg (by omega), bind_of_eq_some hBytes]
  dsimp only
  rw [if_neg (by rw [hKept]; decide)]

theorem scanCodepoint_one {a : UInt8} {v : Nat} {rest : List UInt8}
    (ha : a.toNat ≤ 0x7f) (hv : v = a.toNat) :
    scanCodepoint a rest = some (UInt32.ofNat v, rest) := by
  refine scanCodepoint_of_steps ?_ (Nat.zero_le _) rfl
    ((rejectedCodepoint_ofNat (by omega)).mpr (by omega))
  rw [leadByte_ranges, if_pos ha, hv]

theorem scanCodepoint_two {a b : UInt8} {v : Nat} {rest : List UInt8}
    (ha : 0xc0 ≤ a.toNat ∧ a.toNat ≤ 0xdf) (hb : Continuation b)
    (hv : v = (a.toNat - 0xc0) * 64 + (b.toNat - 0x80)) (hLow : 0x7f < v) :
    scanCodepoint a (b :: rest) = some (UInt32.ofNat v, rest) := by
  have ⟨hbLow, hbHigh⟩ := hb
  have hLead : leadByte a = some (UInt32.ofNat (a.toNat - 0xc0), 1) := by
    rw [leadByte_ranges, if_neg (by omega), if_neg (by omega), if_pos ha.2]
  refine scanCodepoint_of_steps hLead (by simp) ?_
    ((rejectedCodepoint_ofNat (by omega)).mpr (by omega))
  rw [continuationBytes_cons (by omega) hb, continuationBytes, hv]

theorem scanCodepoint_three {a b d : UInt8} {v : Nat} {rest : List UInt8}
    (ha : 0xe0 ≤ a.toNat ∧ a.toNat ≤ 0xef) (hb : Continuation b)
    (hd : Continuation d)
    (hv : v = ((a.toNat - 0xe0) * 64 + (b.toNat - 0x80)) * 64 +
      (d.toNat - 0x80))
    (hLow : 0x7ff < v) (hValid : v < 0xd800 ∨ 0xdfff < v) :
    scanCodepoint a (b :: d :: rest) = some (UInt32.ofNat v, rest) := by
  have ⟨hbLow, hbHigh⟩ := hb
  have ⟨hdLow, hdHigh⟩ := hd
  have hLead : leadByte a = some (UInt32.ofNat (a.toNat - 0xe0), 2) := by
    rw [leadByte_ranges, if_neg (by omega), if_neg (by omega),
      if_neg (by omega), if_pos ha.2]
  refine scanCodepoint_of_steps hLead (by simp) ?_
    ((rejectedCodepoint_ofNat (by omega)).mpr (by omega))
  rw [continuationBytes_cons (by omega) hb,
    continuationBytes_cons (by omega) hd, continuationBytes, hv]

theorem scanCodepoint_four {a b d e : UInt8} {v : Nat} {rest : List UInt8}
    (ha : 0xf0 ≤ a.toNat ∧ a.toNat ≤ 0xf7) (hb : Continuation b)
    (hd : Continuation d) (he : Continuation e)
    (hv : v = (((a.toNat - 0xf0) * 64 + (b.toNat - 0x80)) * 64 +
      (d.toNat - 0x80)) * 64 + (e.toNat - 0x80))
    (hLow : 0xffff < v) (hHigh : v < 0x110000) :
    scanCodepoint a (b :: d :: e :: rest) =
      some (UInt32.ofNat v, rest) := by
  have ⟨hbLow, hbHigh⟩ := hb
  have ⟨hdLow, hdHigh⟩ := hd
  have ⟨heLow, heHigh⟩ := he
  have hLead : leadByte a = some (UInt32.ofNat (a.toNat - 0xf0), 3) := by
    rw [leadByte_ranges, if_neg (by omega), if_neg (by omega),
      if_neg (by omega), if_neg (by omega), if_pos ha.2]
  refine scanCodepoint_of_steps hLead (by simp) ?_
    ((rejectedCodepoint_ofNat (by omega)).mpr (by omega))
  rw [continuationBytes_cons (by omega) hb,
    continuationBytes_cons (by omega) hd,
    continuationBytes_cons (by omega) he, continuationBytes, hv]

/-- The scan reads the encoding of a scalar value whole. -/
theorem scanCodepoint_encodeChar (c : Char) (rest : List UInt8) :
    ∃ first src, utf8EncodeChar c ++ rest = first :: src ∧
      scanCodepoint first src = some (c.val, rest) := by
  have hValid := toNat_valid c
  have hLast := continuation_ofNat (n := c.toNat % 64) (by omega)
  have hMiddle := continuation_ofNat (n := c.toNat / 64 % 64) (by omega)
  have hUpper := continuation_ofNat (n := c.toNat / 4096 % 64) (by omega)
  have hLastValue := toNat_ofNat (n := c.toNat % 64 + 0x80) (by omega)
  have hMiddleValue := toNat_ofNat (n := c.toNat / 64 % 64 + 0x80) (by omega)
  have hUpperValue := toNat_ofNat (n := c.toNat / 4096 % 64 + 0x80) (by omega)
  rw [val_eq_ofNat]
  by_cases hOne : c.toNat ≤ 0x7f
  · have hLead := toNat_ofNat (n := c.toNat) (by omega)
    rw [encodeChar_one hOne]
    exact ⟨_, _, rfl, scanCodepoint_one (by omega) (by omega)⟩
  by_cases hTwo : c.toNat ≤ 0x7ff
  · have hLead := toNat_ofNat (n := c.toNat / 64 + 0xc0) (by omega)
    rw [encodeChar_two (by omega) hTwo]
    exact ⟨_, _, rfl, scanCodepoint_two (by omega) hLast (by omega)
      (by omega)⟩
  by_cases hThree : c.toNat ≤ 0xffff
  · have hLead := toNat_ofNat (n := c.toNat / 4096 + 0xe0) (by omega)
    rw [encodeChar_three (by omega) hThree]
    exact ⟨_, _, rfl, scanCodepoint_three (by omega) hMiddle hLast
      (by omega) (by omega) (by omega)⟩
  · have hLead := toNat_ofNat (n := c.toNat / 262144 + 0xf0) (by omega)
    rw [encodeChar_four (by omega)]
    exact ⟨_, _, rfl, scanCodepoint_four (by omega) hUpper hMiddle hLast
      (by omega) (by omega) (by omega)⟩

/-- A kept code point is a scalar value. -/
theorem exists_char_of_kept {n v : Nat} (hv : v < 2 ^ 32)
    (hKept : rejectedCodepoint n (UInt32.ofNat v) = false) :
    ∃ c : Char, c.val = UInt32.ofNat v ∧ c.toNat = v := by
  obtain ⟨-, -, -, hValid⟩ := (rejectedCodepoint_ofNat hv).mp hKept
  obtain ⟨c, hc⟩ := exists_char hValid
  exact ⟨c, by rw [val_eq_ofNat, hc], hc⟩

/-- What a turn of the scan reads is the encoding of a scalar value. -/
theorem exists_char_of_scanCodepoint {first : UInt8} {src rest : List UInt8}
    {codepoint : UInt32}
    (h : scanCodepoint first src = some (codepoint, rest)) :
    ∃ c : Char, c.val = codepoint ∧
      first :: src = utf8EncodeChar c ++ rest := by
  obtain ⟨lead, n, hLead, hBytes, hKept⟩ := scanCodepoint_cases h
  rw [leadByte_ranges] at hLead
  split_ifs at hLead with hOne hNone hTwo hThree hFour
  all_goals
    simp only [Option.some.injEq, Prod.mk.injEq] at hLead
    obtain ⟨rfl, rfl⟩ := hLead
  · obtain ⟨rfl, rfl⟩ := continuationBytes_zero hBytes
    obtain ⟨c, hVal, hc⟩ := exists_char_of_kept (by omega) hKept
    exact ⟨c, hVal, by rw [encodeChar_eq_one hOne hc]; rfl⟩
  · obtain ⟨b, src, rfl, hb, hBytes⟩ :=
      exists_of_continuationBytes (by omega) hBytes
    obtain ⟨rfl, rfl⟩ := continuationBytes_zero hBytes
    have ⟨hbLow, hbHigh⟩ := hb
    obtain ⟨hLow, -, -, -⟩ := (rejectedCodepoint_ofNat (by omega)).mp hKept
    obtain ⟨c, hVal, hc⟩ := exists_char_of_kept (by omega) hKept
    have hEncoded := encodeChar_eq_two (by omega) hb hc (by omega) (by omega)
    exact ⟨c, hVal, by rw [hEncoded]; rfl⟩
  · obtain ⟨b, src, rfl, hb, hBytes⟩ :=
      exists_of_continuationBytes (by omega) hBytes
    have ⟨hbLow, hbHigh⟩ := hb
    obtain ⟨d, src, rfl, hd, hBytes⟩ :=
      exists_of_continuationBytes (by omega) hBytes
    have ⟨hdLow, hdHigh⟩ := hd
    obtain ⟨rfl, rfl⟩ := continuationBytes_zero hBytes
    obtain ⟨-, hLow, -, -⟩ := (rejectedCodepoint_ofNat (by omega)).mp hKept
    obtain ⟨c, hVal, hc⟩ := exists_char_of_kept (by omega) hKept
    have hEncoded :=
      encodeChar_eq_three (by omega) hb hd hc (by omega) (by omega)
    exact ⟨c, hVal, by rw [hEncoded]; rfl⟩
  · obtain ⟨b, src, rfl, hb, hBytes⟩ :=
      exists_of_continuationBytes (by omega) hBytes
    have ⟨hbLow, hbHigh⟩ := hb
    obtain ⟨d, src, rfl, hd, hBytes⟩ :=
      exists_of_continuationBytes (by omega) hBytes
    have ⟨hdLow, hdHigh⟩ := hd
    obtain ⟨e, src, rfl, he, hBytes⟩ :=
      exists_of_continuationBytes (by omega) hBytes
    have ⟨heLow, heHigh⟩ := he
    obtain ⟨rfl, rfl⟩ := continuationBytes_zero hBytes
    obtain ⟨-, -, hLow, -⟩ := (rejectedCodepoint_ofNat (by omega)).mp hKept
    obtain ⟨c, hVal, hc⟩ := exists_char_of_kept (by omega) hKept
    have hEncoded :=
      encodeChar_eq_four (by omega) hb hd he hc (by omega)
    exact ⟨c, hVal, by rw [hEncoded]; rfl⟩

/-! ## The wide characters of a text -/

/-- The wide characters of a scalar value: itself, or a surrogate pair where
two bytes do not hold it. -/
def wideUnits (size : WcharSize) (c : Char) : List (Wchar size) :=
  match size with
  | .two =>
      if c.toNat ≤ 0xffff then [BitVec.ofNat _ c.toNat]
      else [BitVec.ofNat _ (0xd800 + (c.toNat - 0x10000) / 1024),
        BitVec.ofNat _ (0xdc00 + (c.toNat - 0x10000) % 1024)]
  | .four => [BitVec.ofNat _ c.toNat]

/-- A string of Unicode scalar values as the program holds it. -/
def wideString (size : WcharSize) (t : List Char) : List (Wchar size) :=
  t.flatMap (wideUnits size)

theorem val_toNat (c : Char) : c.val.toNat = c.toNat := rfl

theorem val_gt_iff (c : Char) : c.val > 0xffff ↔ ¬ c.toNat ≤ 0xffff := by
  rw [gt_iff_lt, UInt32.lt_iff_toNat_lt, Nat.not_le]
  rfl

theorem wcharUnitCountForCodepoint_val (size : WcharSize) (c : Char) :
    wcharUnitCountForCodepoint size c.val = (wideUnits size c).length := by
  cases size with
  | four => rfl
  | two =>
      simp only [wcharUnitCountForCodepoint, wideUnits, val_gt_iff]
      by_cases h : c.toNat ≤ 0xffff
      · rw [if_neg (not_not_intro h), if_pos h]
        rfl
      · rw [if_pos h, if_neg h]
        rfl

theorem castToWchar_eq (size : WcharSize) {codepoint : UInt32} {n : Nat}
    (h : codepoint.toNat = n) :
    castToWchar size codepoint = BitVec.ofNat size.bits n := by
  apply BitVec.eq_of_toNat_eq
  unfold castToWchar
  rw [BitVec.toNat_setWidth, BitVec.toNat_ofNat, ← h]
  rfl

/-- The units written at an index of a buffer. -/
def writeUnits {size : WcharSize} (out units : List (Wchar size))
    (outIdx : Nat) : List (Wchar size) :=
  out.take outIdx ++ units ++ out.drop (outIdx + units.length)

theorem set_eq_writeUnits {size : WcharSize} {out : List (Wchar size)}
    {outIdx : Nat} (h : outIdx < out.length) (unit : Wchar size) :
    out.set outIdx unit = writeUnits out [unit] outIdx := by
  rw [List.set_eq_take_append_cons_drop, if_pos h, writeUnits,
    List.append_assoc]
  rfl

theorem length_writeUnits {size : WcharSize} {out units : List (Wchar size)}
    {outIdx : Nat} (h : outIdx + units.length ≤ out.length) :
    (writeUnits out units outIdx).length = out.length := by
  simp only [writeUnits, List.length_append, List.length_take,
    List.length_drop]
  omega

/-- Units written one after the other are written together. -/
theorem writeUnits_append {size : WcharSize}
    {out first second : List (Wchar size)} {outIdx : Nat}
    (h : outIdx + first.length ≤ out.length) :
    writeUnits (writeUnits out first outIdx) second
      (outIdx + first.length) = writeUnits out (first ++ second) outIdx := by
  have hPrefix :
      (out.take outIdx ++ first).length = outIdx + first.length := by
    rw [List.length_append, List.length_take]
    omega
  have hLeft : (writeUnits out first outIdx).take (outIdx + first.length) =
      out.take outIdx ++ first := by
    rw [writeUnits, ← hPrefix, List.take_left]
  have hRight : (writeUnits out first outIdx).drop
      (outIdx + first.length + second.length) =
      out.drop (outIdx + (first ++ second).length) := by
    rw [writeUnits, ← List.drop_drop, ← hPrefix, List.drop_left,
      List.drop_drop, hPrefix, List.length_append, Nat.add_assoc]
  rw [writeUnits, hLeft, hRight, writeUnits, List.append_assoc (out.take _)]

theorem sub_toNat {c : Char} (h : ¬ c.toNat ≤ 0xffff) :
    (c.val - 0x10000).toNat = c.toNat - 0x10000 := by
  have hLe : (0x10000 : UInt32) ≤ c.val := by
    rw [UInt32.le_iff_toNat_le]
    show 0x10000 ≤ c.toNat
    omega
  rw [UInt32.toNat_sub_of_le _ _ hLe]
  rfl

theorem highSurrogate_toNat {c : Char} (h : ¬ c.toNat ≤ 0xffff) :
    (0xd800 + (c.val - 0x10000).shiftRight 10).toNat =
      0xd800 + (c.toNat - 0x10000) / 1024 := by
  have hValid := toNat_valid c
  show (0xd800 + (c.val - 0x10000) >>> (10 : UInt32)).toNat = _
  rw [UInt32.toNat_add, UInt32.toNat_shiftRight, sub_toNat h]
  show (0xd800 + (c.toNat - 0x10000) >>> 10) % 2 ^ 32 = _
  rw [Nat.shiftRight_eq_div_pow]
  omega

theorem lowSurrogate_toNat {c : Char} (h : ¬ c.toNat ≤ 0xffff) :
    (0xdc00 + ((c.val - 0x10000) &&& 0x3ff)).toNat =
      0xdc00 + (c.toNat - 0x10000) % 1024 := by
  rw [UInt32.toNat_add, UInt32.toNat_and, sub_toNat h]
  show (0xdc00 + ((c.toNat - 0x10000) &&& (2 ^ 10 - 1))) % 2 ^ 32 = _
  rw [Nat.and_two_pow_sub_one_eq_mod]
  omega

/-- A scalar value that fits one wide character. -/
theorem appendWcharUnits_single {size : WcharSize} {c : Char}
    (h : ¬ (size = .two ∧ c.val > 0xffff)) (out : List (Wchar size))
    (outIdx : Nat) :
    appendWcharUnits size c.val out outIdx =
      if outIdx + 1 ≤ out.length then
        some (writeUnits out [BitVec.ofNat _ c.toNat] outIdx, outIdx + 1)
      else none := by
  rw [appendWcharUnits, if_neg h]
  by_cases hRoom : outIdx + 1 ≤ out.length
  · rw [if_neg (by omega), if_pos hRoom, set_eq_writeUnits (by omega),
      castToWchar_eq size rfl]
    rfl
  · rw [if_pos (by omega), if_neg hRoom]

/-- A scalar value that takes a pair. -/
theorem appendWcharUnits_pair {c : Char} (h : ¬ c.toNat ≤ 0xffff)
    (out : List (Wchar .two)) (outIdx : Nat) :
    appendWcharUnits .two c.val out outIdx =
      if outIdx + 2 ≤ out.length then
        some (writeUnits out (wideUnits .two c) outIdx, outIdx + 2)
      else none := by
  have hUnits : wideUnits .two c =
      [BitVec.ofNat _ (0xd800 + (c.toNat - 0x10000) / 1024)] ++
        [BitVec.ofNat _ (0xdc00 + (c.toNat - 0x10000) % 1024)] := if_neg h
  rw [appendWcharUnits, if_pos ⟨rfl, (val_gt_iff c).mpr h⟩]
  by_cases hRoom : outIdx + 2 ≤ out.length
  · rw [if_neg (by omega), if_pos hRoom, hUnits]
    dsimp only
    rw [castToWchar_eq .two (highSurrogate_toNat h),
      castToWchar_eq .two (lowSurrogate_toNat h),
      set_eq_writeUnits (by
        rw [List.length_set]
        omega), set_eq_writeUnits (by omega)]
    exact congrArg (fun out => some (out, outIdx + 2))
      (writeUnits_append (by simp; omega))
  · rw [if_pos (by omega), if_neg hRoom]

theorem appendWcharUnits_val (size : WcharSize) (c : Char)
    (out : List (Wchar size)) (outIdx : Nat) :
    appendWcharUnits size c.val out outIdx =
      if outIdx + (wideUnits size c).length ≤ out.length then
        some (writeUnits out (wideUnits size c) outIdx,
          outIdx + (wideUnits size c).length)
      else none := by
  cases size with
  | four => exact appendWcharUnits_single (by simp) out outIdx
  | two =>
      by_cases h : c.toNat ≤ 0xffff
      · have hUnits : wideUnits .two c = [BitVec.ofNat _ c.toNat] := if_pos h
        have hSmall : ¬ c.val > 0xffff := fun hAbove =>
          (val_gt_iff c).mp hAbove h
        rw [appendWcharUnits_single (fun hPair => hSmall hPair.2), hUnits]
        rfl
      · have hLength : (wideUnits .two c).length = 2 := by
          simp only [wideUnits, if_neg h]
          rfl
        rw [appendWcharUnits_pair h, hLength]

/-! ## The scan over a text -/

theorem wideString_cons (size : WcharSize) (c : Char) (t : List Char) :
    wideString size (c :: t) = wideUnits size c ++ wideString size t := rfl

/-- The text a scan records, one scalar value after the other. -/
def recordText {size : WcharSize} (state : ScanState size) (t : List Char) :
    Option (ScanState size) :=
  t.foldlM (fun state c => recordCodepoint c.val state) state

theorem scanLoop_cons {size : WcharSize} (state : ScanState size)
    (first : UInt8) (src : List UInt8) :
    scanLoop state (first :: src) =
      scanCodepoint first src >>= fun turn =>
        recordCodepoint turn.1 state >>= fun state =>
          scanLoop state turn.2 := by
  rw [scanLoop]
  split
  case h_1 hTurn => rw [bind_of_eq_none hTurn]
  case h_2 codepoint rest hTurn =>
    rw [bind_of_eq_some hTurn]
    dsimp only
    split
    case h_1 hRecord => rw [bind_of_eq_none hRecord]
    case h_2 next hRecord => rw [bind_of_eq_some hRecord]

/-- The loop records an encoded text. -/
theorem scanLoop_encoded {size : WcharSize} (state : ScanState size)
    (t : List Char) :
    scanLoop state (t.flatMap utf8EncodeChar) = recordText state t := by
  induction t generalizing state with
  | nil =>
      rw [List.flatMap_nil, scanLoop]
      rfl
  | cons c t ih =>
      obtain ⟨first, src, hBytes, hTurn⟩ :=
        scanCodepoint_encodeChar c (t.flatMap utf8EncodeChar)
      rw [List.flatMap_cons, hBytes, scanLoop_cons, bind_of_eq_some hTurn,
        recordText, List.foldlM_cons]
      exact congrArg _ (funext fun state => ih state)

/-- A loop that ends has read an encoded text. -/
theorem exists_text_of_scanLoop {size : WcharSize}
    {state state' : ScanState size} {bytes : List UInt8}
    (h : scanLoop state bytes = some state') :
    ∃ t : List Char, bytes = t.flatMap utf8EncodeChar := by
  induction hLength : bytes.length using Nat.strong_induction_on
    generalizing bytes state with
  | _ n ih =>
      cases bytes with
      | nil => exact ⟨[], rfl⟩
      | cons first src =>
          rw [scanLoop_cons] at h
          obtain ⟨⟨codepoint, rest⟩, hTurn, h⟩ :=
            Option.bind_eq_some_iff.mp h
          obtain ⟨next, -, h⟩ := Option.bind_eq_some_iff.mp h
          have hShorter := scanCodepoint_length hTurn
          rw [List.length_cons] at hLength
          obtain ⟨t, rfl⟩ := ih rest.length (by omega) h rfl
          obtain ⟨c, -, hBytes⟩ := exists_char_of_scanCodepoint hTurn
          exact ⟨c :: t, by rw [hBytes, List.flatMap_cons]⟩

theorem recordText_cons {size : WcharSize} (state : ScanState size)
    (c : Char) (t : List Char) :
    recordText state (c :: t) =
      recordCodepoint c.val state >>= fun state => recordText state t := by
  rw [recordText, List.foldlM_cons]
  rfl

/-- Counting a text. -/
theorem recordText_count {size : WcharSize} (count outIdx : Nat)
    (t : List Char) :
    recordText (⟨count, none, outIdx⟩ : ScanState size) t =
      some ⟨count + (wideString size t).length, none, outIdx⟩ := by
  induction t generalizing count with
  | nil => rfl
  | cons c t ih =>
      have hStep : recordCodepoint c.val
          (⟨count, none, outIdx⟩ : ScanState size) =
          some ⟨count + (wideUnits size c).length, none, outIdx⟩ := by
        rw [← wcharUnitCountForCodepoint_val]
        rfl
      rw [recordText_cons, bind_of_eq_some hStep, ih, wideString_cons,
        List.length_append, Nat.add_assoc]

/-- Writing one scalar value. -/
theorem recordCodepoint_write {size : WcharSize} (count outIdx : Nat)
    (out : List (Wchar size)) (c : Char) :
    recordCodepoint c.val ⟨count, some out, outIdx⟩ =
      if outIdx + (wideUnits size c).length ≤ out.length then
        some ⟨count + (wideUnits size c).length,
          some (writeUnits out (wideUnits size c) outIdx),
          outIdx + (wideUnits size c).length⟩
      else none := by
  rw [recordCodepoint]
  dsimp only
  rw [appendWcharUnits_val, wcharUnitCountForCodepoint_val]
  split <;> rfl

/-- Writing a text. -/
theorem recordText_write {size : WcharSize} (count outIdx : Nat)
    (out : List (Wchar size)) (t : List Char) (hIdx : outIdx ≤ out.length) :
    recordText ⟨count, some out, outIdx⟩ t =
      if outIdx + (wideString size t).length ≤ out.length then
        some ⟨count + (wideString size t).length,
          some (writeUnits out (wideString size t) outIdx),
          outIdx + (wideString size t).length⟩
      else none := by
  induction t generalizing count outIdx out with
  | nil =>
      have hOut : writeUnits out [] outIdx = out := by
        rw [writeUnits, List.append_nil]
        exact List.take_append_drop outIdx out
      rw [show wideString size [] = [] from rfl, hOut]
      exact (if_pos hIdx).symm
  | cons c t ih =>
      rw [recordText_cons, recordCodepoint_write, wideString_cons,
        List.length_append]
      by_cases hRoom : outIdx + (wideUnits size c).length ≤ out.length
      · rw [if_pos hRoom]
        show recordText _ t = _
        rw [ih _ _ _ (by rw [length_writeUnits hRoom]; exact hRoom),
          length_writeUnits hRoom, writeUnits_append hRoom,
          Nat.add_assoc outIdx, Nat.add_assoc count]
      · rw [if_neg hRoom, if_neg (by omega)]
        rfl

/-! ## The two passes -/

/-- Validation counts the wide characters of an encoded text. -/
theorem validateUtf8ForWchar_encoded (size : WcharSize) (t : List Char) :
    validateUtf8ForWchar size (t.flatMap utf8EncodeChar) =
      some (wideString size t).length := by
  rw [validateUtf8ForWchar, scanUtf8, scanLoop_encoded, recordText_count,
    Nat.zero_add]
  rfl

/-- The writing pass over an encoded text fills a buffer of the right size
and fails with any other. -/
theorem scanUtf8_write {size : WcharSize} (t : List Char)
    (out : List (Wchar size)) :
    scanUtf8 (t.flatMap utf8EncodeChar) (some out) =
      if out.length = (wideString size t).length then
        some ((wideString size t).length, some (wideString size t))
      else none := by
  rw [scanUtf8, scanLoop_encoded, recordText_write 0 0 out t (Nat.zero_le _),
    Nat.zero_add]
  rcases Nat.lt_trichotomy (wideString size t).length out.length with
    hLess | hSame | hMore
  · have hLength : (writeUnits out (wideString size t) 0).length =
        out.length := length_writeUnits (by omega)
    have hOther : (wideString size t).length ≠
        (writeUnits out (wideString size t) 0).length := by omega
    rw [if_pos (Nat.le_of_lt hLess), if_neg (by omega)]
    exact if_pos hOther
  · have hOut : writeUnits out (wideString size t) 0 = wideString size t := by
      rw [writeUnits, Nat.zero_add, hSame, List.drop_length, List.take_zero,
        List.nil_append, List.append_nil]
    rw [if_pos (by omega), if_pos hSame.symm, hOut]
    exact if_neg (by simp)
  · rw [if_neg (by omega), if_neg (by omega)]
    rfl

/-- Decoding fills a buffer of the right size and turns others down. -/
theorem decodeUtf8IntoWchar_encoded {size : WcharSize} (t : List Char)
    (out : List (Wchar size)) :
    decodeUtf8IntoWchar (t.flatMap utf8EncodeChar) out =
      if out.length = (wideString size t).length then
        some (wideString size t)
      else none := by
  rw [decodeUtf8IntoWchar, scanUtf8_write]
  by_cases hSame : out.length = (wideString size t).length
  · rw [if_pos hSame, if_pos hSame]
    exact if_pos hSame.symm
  · rw [if_neg hSame, if_neg hSame]
    rfl

/-- Decoding an encoded text gives its wide characters. -/
theorem decodeUtf8_encoded (size : WcharSize) (t : List Char) :
    decodeUtf8 size (t.flatMap utf8EncodeChar) =
      some (wideString size t) := by
  rw [decodeUtf8, bind_of_eq_some (validateUtf8ForWchar_encoded size t),
    decodeUtf8IntoWchar_encoded, List.length_replicate, if_pos rfl]

/-- What validates is an encoded text. -/
theorem exists_text_of_validate {size : WcharSize} {bytes : List UInt8}
    {count : Nat} (h : validateUtf8ForWchar size bytes = some count) :
    ∃ t : List Char, bytes = t.flatMap utf8EncodeChar := by
  unfold validateUtf8ForWchar at h
  obtain ⟨scanned, hScan, -⟩ := Option.bind_eq_some_iff.mp h
  unfold scanUtf8 at hScan
  obtain ⟨state, hLoop, -⟩ := Option.bind_eq_some_iff.mp hScan
  exact exists_text_of_scanLoop hLoop

/-- What decodes into a buffer is an encoded text. -/
theorem exists_text_of_decodeInto {size : WcharSize} {bytes : List UInt8}
    {out written : List (Wchar size)}
    (h : decodeUtf8IntoWchar bytes out = some written) :
    ∃ t : List Char, bytes = t.flatMap utf8EncodeChar := by
  unfold decodeUtf8IntoWchar at h
  obtain ⟨scanned, hScan, -⟩ := Option.bind_eq_some_iff.mp h
  unfold scanUtf8 at hScan
  obtain ⟨state, hLoop, -⟩ := Option.bind_eq_some_iff.mp hScan
  exact exists_text_of_scanLoop hLoop

/-- What decodes is an encoded text. -/
theorem exists_text_of_decode {size : WcharSize} {bytes : List UInt8}
    {text : List (Wchar size)} (h : decodeUtf8 size bytes = some text) :
    ∃ t : List Char, bytes = t.flatMap utf8EncodeChar := by
  unfold decodeUtf8 at h
  obtain ⟨count, hCount, -⟩ := Option.bind_eq_some_iff.mp h
  exact exists_text_of_validate hCount

/-! ## Encoding -/

theorem toUInt8_eq_ofNat {codepoint : UInt32} {n : Nat}
    (h : codepoint.toNat = n) : codepoint.toUInt8 = UInt8.ofNat n := by
  apply UInt8.toNat_inj.mp
  rw [UInt32.toNat_toUInt8, UInt8.toNat_ofNat', h]

/-- A marker in the high bits over a value below it. -/
theorem or_eq_add {marker n k : Nat} (h : n < 2 ^ k)
    (hMarker : 2 ^ k ∣ marker) : marker ||| n = n + marker := by
  obtain ⟨m, rfl⟩ := hMarker
  rw [Nat.mul_comm, ← Nat.shiftLeft_eq, ← Nat.shiftLeft_add_eq_or_of_lt h,
    Nat.add_comm]

theorem shiftRight_val (c : Char) (k : UInt32) (hk : k.toNat < 32) :
    (c.val.shiftRight k).toNat = c.toNat / 2 ^ k.toNat := by
  show (c.val >>> k).toNat = _
  rw [UInt32.toNat_shiftRight, Nat.mod_eq_of_lt hk, Nat.shiftRight_eq_div_pow]
  rfl

/-- A continuation byte as encoding writes it. -/
theorem toUInt8_continuation {codepoint : UInt32} {n : Nat}
    (h : codepoint.toNat = n) :
    (0x80 ||| codepoint &&& 0x3f).toUInt8 = UInt8.ofNat (n % 64 + 0x80) := by
  apply toUInt8_eq_ofNat
  rw [UInt32.toNat_or, UInt32.toNat_and, h]
  show 0x80 ||| (n &&& (2 ^ 6 - 1)) = _
  rw [Nat.and_two_pow_sub_one_eq_mod]
  exact or_eq_add (k := 6) (Nat.mod_lt _ (by decide)) (by decide)

/-- A lead byte as encoding writes it. -/
theorem toUInt8_lead {codepoint marker : UInt32} {n k : Nat}
    (h : codepoint.toNat = n) (hn : n < 2 ^ k)
    (hMarker : 2 ^ k ∣ marker.toNat) :
    (marker ||| codepoint).toUInt8 = UInt8.ofNat (n + marker.toNat) := by
  apply toUInt8_eq_ofNat
  rw [UInt32.toNat_or, h]
  exact or_eq_add hn hMarker

/-- The bytes appended for a scalar value are its standard encoding. -/
theorem appendUtf8Codepoint_val (result : List UInt8) (c : Char) :
    appendUtf8Codepoint result c.val = result ++ utf8EncodeChar c := by
  have hValid := toNat_valid c
  have hLe : ∀ n : UInt32, c.val ≤ n ↔ c.toNat ≤ n.toNat := fun n =>
    UInt32.le_iff_toNat_le
  have hSix : (c.val.shiftRight 6).toNat = c.toNat / 64 :=
    shiftRight_val c 6 (by decide)
  have hTwelve : (c.val.shiftRight 12).toNat = c.toNat / 4096 :=
    shiftRight_val c 12 (by decide)
  have hEighteen : (c.val.shiftRight 18).toNat = c.toNat / 262144 :=
    shiftRight_val c 18 (by decide)
  have hLast := toUInt8_continuation (val_toNat c)
  unfold appendUtf8Codepoint
  simp only [hLe, UInt32.reduceToNat]
  by_cases hOne : c.toNat ≤ 0x7f
  · rw [if_pos hOne, encodeChar_one hOne, toUInt8_eq_ofNat rfl]
    rfl
  rw [if_neg hOne]
  by_cases hTwo : c.toNat ≤ 0x7ff
  · rw [if_pos hTwo, encodeChar_two (by omega) hTwo, hLast,
      toUInt8_lead (k := 5) hSix (by omega) (by decide)]
    rfl
  rw [if_neg hTwo]
  by_cases hThree : c.toNat ≤ 0xffff
  · rw [if_pos hThree, encodeChar_three (by omega) hThree, hLast,
      toUInt8_continuation hSix,
      toUInt8_lead (k := 4) hTwelve (by omega) (by decide)]
    rfl
  · rw [if_neg hThree, encodeChar_four (by omega), hLast,
      toUInt8_continuation hSix, toUInt8_continuation hTwelve,
      toUInt8_lead (k := 3) hEighteen (by omega) (by decide)]
    rfl

theorem castFromWchar_ofNat (size : WcharSize) {n : Nat}
    (h : n < 2 ^ size.bits) :
    castFromWchar (BitVec.ofNat size.bits n) = UInt32.ofNat n := by
  have hWide : size.bits ≤ 32 := by cases size <;> decide
  have hSmall : n < 2 ^ 32 :=
    Nat.lt_of_lt_of_le h (Nat.pow_le_pow_right (by decide) hWide)
  apply UInt32.toNat_inj.mp
  show ((BitVec.ofNat size.bits n).setWidth 32).toNat = _
  rw [BitVec.toNat_setWidth, BitVec.toNat_ofNat, Nat.mod_eq_of_lt h,
    Nat.mod_eq_of_lt hSmall, toNat_ofNat32 hSmall]

/-- A unit that starts no pair is taken alone. -/
theorem takeCodepoint_single {size : WcharSize} {unit : Wchar size} {n : Nat}
    (hUnit : castFromWchar unit = UInt32.ofNat n) (hn : n < 2 ^ 32)
    (h : size = .two → n < 0xd800 ∨ 0xdbff < n) (text : List (Wchar size)) :
    takeCodepoint unit text = (UInt32.ofNat n, text) := by
  have hValue : (UInt32.ofNat n).toNat = n := toNat_ofNat32 hn
  unfold takeCodepoint
  rw [hUnit]
  cases text with
  | nil => rfl
  | cons next rest =>
      refine if_neg ?_
      rintro ⟨hSize, hLow, hHigh, -, -⟩
      rw [ge_iff_le, UInt32.le_iff_toNat_le, hValue] at hLow
      rw [UInt32.le_iff_toNat_le, hValue] at hHigh
      simp only [UInt32.reduceToNat] at hLow hHigh
      have := h hSize
      omega

/-- The two halves of an offset put back together. -/
theorem shift_or_low {o : Nat} (h : o < 2 ^ 20) :
    ((UInt32.ofNat (0xd800 + o / 1024) - 0xd800).shiftLeft 10 |||
      (UInt32.ofNat (0xdc00 + o % 1024) - 0xdc00)) = UInt32.ofNat o := by
  have hHigh : UInt32.ofNat (0xd800 + o / 1024) - 0xd800 =
      UInt32.ofNat (o / 1024) := by
    rw [UInt32.ofNat_add, UInt32.add_comm]
    exact UInt32.add_sub_cancel _ _
  have hLow : UInt32.ofNat (0xdc00 + o % 1024) - 0xdc00 =
      UInt32.ofNat (o % 1024) := by
    rw [UInt32.ofNat_add, UInt32.add_comm]
    exact UInt32.add_sub_cancel _ _
  have hShift : ((UInt32.ofNat (o / 1024)).shiftLeft 10).toNat =
      (o / 1024) <<< 10 := by
    show ((UInt32.ofNat (o / 1024)) <<< (10 : UInt32)).toNat = _
    rw [UInt32.toNat_shiftLeft, toNat_ofNat32 (by omega)]
    show (o / 1024) <<< 10 % 2 ^ 32 = _
    rw [Nat.shiftLeft_eq]
    omega
  rw [hHigh, hLow]
  apply UInt32.toNat_inj.mp
  rw [UInt32.toNat_or, hShift, toNat_ofNat32 (by omega),
    toNat_ofNat32 (by omega),
    ← Nat.shiftLeft_add_eq_or_of_lt (Nat.mod_lt _ (by decide)),
    Nat.shiftLeft_eq, Nat.div_add_mod']

/-- A surrogate pair is taken as the scalar value it stands for. -/
theorem takeCodepoint_pair {c : Char} (h : ¬ c.toNat ≤ 0xffff)
    (rest : List (Wchar .two)) :
    takeCodepoint
      (BitVec.ofNat WcharSize.two.bits (0xd800 + (c.toNat - 0x10000) / 1024))
      (BitVec.ofNat _ (0xdc00 + (c.toNat - 0x10000) % 1024) :: rest) =
      (c.val, rest) := by
  have hValid := toNat_valid c
  have hHigh := castFromWchar_ofNat .two
    (n := 0xd800 + (c.toNat - 0x10000) / 1024) (by
      show _ < 2 ^ 16
      omega)
  have hLow := castFromWchar_ofNat .two
    (n := 0xdc00 + (c.toNat - 0x10000) % 1024) (by
      show _ < 2 ^ 16
      omega)
  unfold takeCodepoint
  dsimp only
  rw [hHigh, hLow, if_pos]
  · have hSplit : (0x10000 : UInt32) + UInt32.ofNat (c.toNat - 0x10000) =
        UInt32.ofNat c.toNat := by
      rw [show (0x10000 : UInt32) = UInt32.ofNat 0x10000 from rfl,
        ← UInt32.ofNat_add, Nat.add_sub_of_le (by omega)]
    rw [shift_or_low (by omega), hSplit, val_eq_ofNat]
  · simp only [ge_iff_le, UInt32.le_iff_toNat_le, UInt32.reduceToNat]
    rw [toNat_ofNat32 (by omega), toNat_ofNat32 (by omega)]
    refine ⟨trivial, ?_⟩
    omega

/-- The front of a text's wide characters is its first scalar value. -/
theorem takeCodepoint_wideUnits (size : WcharSize) (c : Char)
    (t : List Char) :
    ∃ unit text, wideUnits size c ++ wideString size t = unit :: text ∧
      takeCodepoint unit text = (c.val, wideString size t) := by
  have hValid := toNat_valid c
  rw [val_eq_ofNat]
  cases size with
  | four =>
      refine ⟨_, _, rfl, takeCodepoint_single (n := c.toNat) ?_ (by omega)
        (fun h => absurd h (by decide)) _⟩
      exact castFromWchar_ofNat .four (by
        show _ < 2 ^ 32
        omega)
  | two =>
      by_cases h : c.toNat ≤ 0xffff
      · have hUnits : wideUnits .two c = [BitVec.ofNat _ c.toNat] := if_pos h
        rw [hUnits]
        refine ⟨_, _, rfl, takeCodepoint_single ?_ (by omega)
          (fun _ => by omega) _⟩
        exact castFromWchar_ofNat .two (by
          show _ < 2 ^ 16
          omega)
      · have hUnits : wideUnits .two c =
            [BitVec.ofNat _ (0xd800 + (c.toNat - 0x10000) / 1024),
              BitVec.ofNat _ (0xdc00 + (c.toNat - 0x10000) % 1024)] :=
          if_neg h
        rw [hUnits, ← val_eq_ofNat]
        exact ⟨_, _, rfl, takeCodepoint_pair h _⟩

theorem encodeLoop_wideString (size : WcharSize) (result : List UInt8)
    (t : List Char) :
    encodeLoop result (wideString size t) =
      some (result ++ t.flatMap utf8EncodeChar) := by
  induction t generalizing result with
  | nil =>
      rw [List.flatMap_nil, List.append_nil, wideString, List.flatMap_nil,
        encodeLoop]
  | cons c t ih =>
      have hValid : c.val ≤ 0x10ffff := by
        have hScalar := toNat_valid c
        rw [UInt32.le_iff_toNat_le]
        show c.toNat ≤ 0x10ffff
        omega
      obtain ⟨unit, text, hText, hTake⟩ := takeCodepoint_wideUnits size c t
      rw [wideString_cons, hText, encodeLoop, hTake]
      dsimp only
      rw [check_bind hValid, ih, appendUtf8Codepoint_val, List.flatMap_cons,
        List.append_assoc]

/-- **UTF-8 codec**: decoding accepts what is well formed; a layout's unit
count is what decoding into a buffer writes; encoding undoes decoding, and
decoding undoes encoding on strings of scalar values. -/
theorem utf8_codec (size : WcharSize) :
    (∀ bytes, (decodeUtf8 size bytes).isSome ↔ WellFormed bytes) ∧
    (∀ bytes count, validateUtf8ForWchar size bytes = some count ↔
      ∃ text : List (Wchar size), text.length = count ∧
        ∀ out, decodeUtf8IntoWchar bytes out =
          if out.length = count then some text else none) ∧
    (∀ bytes text, decodeUtf8 size bytes = some text →
      encodeUtf8 text = some bytes) ∧
    (∀ t : List Char, encodeUtf8 (wideString size t) >>= decodeUtf8 size =
      some (wideString size t)) := by
  have hEncode : ∀ t : List Char, encodeUtf8 (wideString size t) =
      some (t.flatMap utf8EncodeChar) := fun t =>
    encodeLoop_wideString size [] t
  refine ⟨?_, ?_, ?_, ?_⟩
  · intro bytes
    rw [wellFormed_iff_exists_chars]
    constructor
    · intro h
      obtain ⟨text, hText⟩ := Option.isSome_iff_exists.mp h
      exact exists_text_of_decode hText
    · rintro ⟨t, rfl⟩
      rw [decodeUtf8_encoded]
      rfl
  · intro bytes count
    constructor
    · intro h
      obtain ⟨t, rfl⟩ := exists_text_of_validate h
      rw [validateUtf8ForWchar_encoded, Option.some.injEq] at h
      subst h
      exact ⟨wideString size t, rfl, decodeUtf8IntoWchar_encoded t⟩
    · rintro ⟨text, hLength, hWrites⟩
      have hText := hWrites text
      rw [if_pos hLength] at hText
      obtain ⟨t, rfl⟩ := exists_text_of_decodeInto hText
      rw [decodeUtf8IntoWchar_encoded] at hText
      rw [validateUtf8ForWchar_encoded, ← hLength]
      split at hText
      · rw [‹text.length = _›]
      · cases hText
  · intro bytes text h
    obtain ⟨t, rfl⟩ := exists_text_of_decode h
    rw [decodeUtf8_encoded, Option.some.injEq] at h
    rw [← h, hEncode]
  · intro t
    rw [bind_of_eq_some (hEncode t), decodeUtf8_encoded]

end CloverVM.BuiltinTypes.Unicode
