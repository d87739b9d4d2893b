import CloverVM.Machine.Assertion
import CloverVM.Machine.Utf8

/-!
# The UTF-8 codec

Source text, native strings and the strings handed to extensions are bytes
outside and wide characters inside.  One scan both counts the units a byte
string needs and, given a buffer, writes them; decoding runs it twice.  A wide
character has four bytes, or two where the platform's `wchar_t` does, and then
what lies above U+FFFF takes a pair of surrogates.
-/

namespace CloverVM.BuiltinTypes.Unicode

open CloverVM.Machine
open CloverVM.Machine.Utf8
open String (utf8EncodeChar)

/-- `sizeof(cl_wchar)`. -/
inductive WcharSize
  | two
  | four
  deriving DecidableEq, Repr

def WcharSize.bits : WcharSize → Nat
  | .two => 16
  | .four => 32

/-- `cl_wchar`. -/
abbrev Wchar (size : WcharSize) := BitVec size.bits

/-- `static_cast<cl_wchar>(codepoint)`. -/
def castToWchar (size : WcharSize) (codepoint : UInt32) : Wchar size :=
  codepoint.toBitVec.setWidth size.bits

/-- `static_cast<uint32_t>(text[idx])`. -/
def castFromWchar {size : WcharSize} (unit : Wchar size) : UInt32 :=
  ⟨unit.setWidth 32⟩

/-- `append_wchar_units`: the buffer and the next free index, or `none` when
the buffer has no room. -/
def appendWcharUnits (size : WcharSize) (codepoint : UInt32)
    (out : List (Wchar size)) (outIdx : Nat) :
    Option (List (Wchar size) × Nat) :=
  if size = .two ∧ codepoint > 0xffff then
    if outIdx + 2 > out.length then none
    else
      let offset := codepoint - 0x10000
      let out := out.set outIdx (castToWchar size (0xd800 + offset.shiftRight 10))
      let out :=
        out.set (outIdx + 1) (castToWchar size (0xdc00 + (offset &&& 0x3ff)))
      some (out, outIdx + 2)
  else if outIdx + 1 > out.length then none
  else some (out.set outIdx (castToWchar size codepoint), outIdx + 1)

/-- `wchar_unit_count_for_codepoint`. -/
def wcharUnitCountForCodepoint (size : WcharSize) (codepoint : UInt32) : Nat :=
  match size with
  | .two => if codepoint > 0xffff then 2 else 1
  | .four => 1

/-! ## The scan -/

/-- `is_continuation_byte`. -/
def isContinuationByte (byte : UInt8) : Bool := byte &&& 0xc0 == 0x80

/-- The first byte's part of the code point, and how many continuation bytes
it announces. -/
def leadByte (first : UInt8) : Option (UInt32 × Nat) :=
  if first < 0x80 then some (first.toUInt32, 0)
  else if first &&& 0xe0 == 0xc0 then some ((first &&& 0x1f).toUInt32, 1)
  else if first &&& 0xf0 == 0xe0 then some ((first &&& 0x0f).toUInt32, 2)
  else if first &&& 0xf8 == 0xf0 then some ((first &&& 0x07).toUInt32, 3)
  else none

/-- The loop over the continuation bytes: the code point and the bytes that
are left. -/
def continuationBytes :
    Nat → UInt32 → List UInt8 → Option (UInt32 × List UInt8)
  | 0, codepoint, src => some (codepoint, src)
  | n + 1, codepoint, continuation :: src =>
      if isContinuationByte continuation then
        continuationBytes n
          (codepoint.shiftLeft 6 ||| (continuation &&& 0x3f).toUInt32) src
      else none
  | _ + 1, _, [] => none

/-- The code points the scan turns down: overlong ones, those out of range
and surrogates. -/
def rejectedCodepoint (continuationCount : Nat) (codepoint : UInt32) : Bool :=
  (continuationCount == 1 && codepoint < 0x80) ||
  (continuationCount == 2 && codepoint < 0x800) ||
  (continuationCount == 3 && codepoint < 0x10000) ||
  codepoint > 0x10ffff ||
  (codepoint ≥ 0xd800 && codepoint ≤ 0xdfff)

/-- One turn of the loop in `scan_utf8`, up to the code point. -/
def scanCodepoint (first : UInt8) (src : List UInt8) :
    Option (UInt32 × List UInt8) := do
  let (lead, continuationCount) ← leadByte first
  if src.length < continuationCount then none
  else
    let (codepoint, rest) ← continuationBytes continuationCount lead src
    if rejectedCodepoint continuationCount codepoint then none
    else some (codepoint, rest)

theorem continuationBytes_length {n : Nat} {codepoint codepoint' : UInt32}
    {src rest : List UInt8}
    (h : continuationBytes n codepoint src = some (codepoint', rest)) :
    rest.length ≤ src.length := by
  induction n, codepoint, src using continuationBytes.induct with
  | case1 codepoint src =>
      simp only [continuationBytes, Option.some.injEq, Prod.mk.injEq] at h
      rw [h.2]
  | case2 n codepoint continuation src hByte ih =>
      rw [continuationBytes, if_pos hByte] at h
      have hLength := ih h
      simp only [List.length_cons]
      omega
  | case3 n codepoint continuation src hByte =>
      rw [continuationBytes, if_neg hByte] at h
      cases h
  | case4 n codepoint => cases h

/-- What a turn of the scan has to have gone through. -/
theorem scanCodepoint_cases {first : UInt8} {src rest : List UInt8}
    {codepoint : UInt32} (h : scanCodepoint first src = some (codepoint, rest)) :
    ∃ lead n, leadByte first = some (lead, n) ∧
      continuationBytes n lead src = some (codepoint, rest) ∧
      rejectedCodepoint n codepoint = false := by
  unfold scanCodepoint at h
  obtain ⟨⟨lead, n⟩, hLead, h⟩ := Option.bind_eq_some_iff.mp h
  refine ⟨lead, n, hLead, ?_⟩
  dsimp only at h
  by_cases hShort : src.length < n
  · rw [if_pos hShort] at h
    cases h
  rw [if_neg hShort] at h
  obtain ⟨⟨codepoint', rest'⟩, hBytes, h⟩ := Option.bind_eq_some_iff.mp h
  dsimp only at h
  cases hRejected : rejectedCodepoint n codepoint' with
  | true =>
      rw [if_pos hRejected] at h
      cases h
  | false =>
      rw [if_neg (by rw [hRejected]; decide)] at h
      simp only [Option.some.injEq, Prod.mk.injEq] at h
      obtain ⟨rfl, rfl⟩ := h
      exact ⟨hBytes, hRejected⟩

theorem scanCodepoint_length {first : UInt8} {src rest : List UInt8}
    {codepoint : UInt32} (h : scanCodepoint first src = some (codepoint, rest)) :
    rest.length ≤ src.length := by
  obtain ⟨lead, n, -, hBytes, -⟩ := scanCodepoint_cases h
  exact continuationBytes_length hBytes

/-- `count`, `out` and `out_idx`; `out` is `none` for a null pointer. -/
structure ScanState (size : WcharSize) where
  count : Nat
  out : Option (List (Wchar size))
  outIdx : Nat

/-- The rest of a turn: count the code point, and write it if there is a
buffer. -/
def recordCodepoint {size : WcharSize} (codepoint : UInt32)
    (state : ScanState size) : Option (ScanState size) :=
  let count := state.count + wcharUnitCountForCodepoint size codepoint
  match state.out with
  | none => some { state with count := count }
  | some out => do
      let (out, outIdx) ← appendWcharUnits size codepoint out state.outIdx
      some ⟨count, some out, outIdx⟩

/-- The loop of `scan_utf8`. -/
def scanLoop {size : WcharSize} (state : ScanState size) :
    List UInt8 → Option (ScanState size)
  | [] => some state
  | first :: src =>
      match hTurn : scanCodepoint first src with
      | none => none
      | some (codepoint, rest) =>
          have : rest.length < src.length + 1 := by
            have := scanCodepoint_length hTurn
            omega
          match recordCodepoint codepoint state with
          | none => none
          | some state => scanLoop state rest
  termination_by bytes => bytes.length

/-- `scan_utf8`: the count and the buffer. -/
def scanUtf8 {size : WcharSize} (bytes : List UInt8)
    (out : Option (List (Wchar size))) :
    Option (Nat × Option (List (Wchar size))) := do
  let state ← scanLoop ⟨0, out, 0⟩ bytes
  match state.out with
  | none => some (state.count, none)
  | some out =>
      if state.outIdx ≠ out.length then none
      else some (state.count, some out)

/-- `validate_utf8_for_wchar`: the layout's unit count. -/
def validateUtf8ForWchar (size : WcharSize) (bytes : List UInt8) :
    Option Nat := do
  let (count, _) ← scanUtf8 bytes (none : Option (List (Wchar size)))
  some count

/-- `decode_utf8_into_wchar`: the buffer when it returns `true`. -/
def decodeUtf8IntoWchar {size : WcharSize} (bytes : List UInt8)
    (out : List (Wchar size)) : Option (List (Wchar size)) := do
  let (count, written) ← scanUtf8 bytes (some out)
  if count = out.length then written else none

/-- `decode_utf8`. -/
def decodeUtf8 (size : WcharSize) (bytes : List UInt8) :
    Option (List (Wchar size)) := do
  let codeUnitCount ← validateUtf8ForWchar size bytes
  decodeUtf8IntoWchar bytes (List.replicate codeUnitCount 0)

/-- `append_utf8_codepoint`. -/
def appendUtf8Codepoint (result : List UInt8) (codepoint : UInt32) :
    List UInt8 :=
  if codepoint ≤ 0x7f then result ++ [codepoint.toUInt8]
  else if codepoint ≤ 0x7ff then
    result ++ [(0xc0 ||| codepoint.shiftRight 6).toUInt8,
      (0x80 ||| codepoint &&& 0x3f).toUInt8]
  else if codepoint ≤ 0xffff then
    result ++ [(0xe0 ||| codepoint.shiftRight 12).toUInt8,
      (0x80 ||| codepoint.shiftRight 6 &&& 0x3f).toUInt8,
      (0x80 ||| codepoint &&& 0x3f).toUInt8]
  else
    result ++ [(0xf0 ||| codepoint.shiftRight 18).toUInt8,
      (0x80 ||| codepoint.shiftRight 12 &&& 0x3f).toUInt8,
      (0x80 ||| codepoint.shiftRight 6 &&& 0x3f).toUInt8,
      (0x80 ||| codepoint &&& 0x3f).toUInt8]

/-- The code point at the front of the text, a surrogate pair taken as one,
and the text after it. -/
def takeCodepoint {size : WcharSize} (unit : Wchar size)
    (text : List (Wchar size)) : UInt32 × List (Wchar size) :=
  let codepoint := castFromWchar unit
  match text with
  | [] => (codepoint, text)
  | next :: rest =>
      let low := castFromWchar next
      if size = .two ∧ codepoint ≥ 0xd800 ∧ codepoint ≤ 0xdbff ∧
          low ≥ 0xdc00 ∧ low ≤ 0xdfff then
        (0x10000 +
          ((codepoint - 0xd800).shiftLeft 10 ||| (low - 0xdc00)), rest)
      else (codepoint, text)

theorem takeCodepoint_length {size : WcharSize} (unit : Wchar size)
    (text : List (Wchar size)) :
    (takeCodepoint unit text).2.length ≤ text.length := by
  unfold takeCodepoint
  cases text with
  | nil => exact Nat.le_refl _
  | cons next rest =>
      dsimp only
      split <;> simp

/-- The loop of `encode_utf8`, with its assertion. -/
def encodeLoop {size : WcharSize} (result : List UInt8) :
    List (Wchar size) → Option (List UInt8)
  | [] => some result
  | unit :: text =>
      have : (takeCodepoint unit text).2.length < text.length + 1 := by
        have := takeCodepoint_length unit text
        omega
      check ((takeCodepoint unit text).1 ≤ 0x10ffff) >>= fun _ =>
        encodeLoop (appendUtf8Codepoint result (takeCodepoint unit text).1)
          (takeCodepoint unit text).2
  termination_by text => text.length

/-- `encode_utf8`. -/
def encodeUtf8 {size : WcharSize} (text : List (Wchar size)) :
    Option (List UInt8) :=
  encodeLoop [] text

end CloverVM.BuiltinTypes.Unicode
