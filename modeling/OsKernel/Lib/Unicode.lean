import Mathlib

/-! # UTF-8 and UTF-16

The conversions of Rust's `str` and `String` that file names go through: a
string is its list of chars, `encode_utf16` writes each as one or two UTF-16
units, `String::from_utf16_lossy` decodes units with U+FFFD for every unpaired
surrogate, and `str::from_utf8` checks a byte string for well-formed UTF-8.
-/

namespace Unicode

/-- `char::REPLACEMENT_CHARACTER`. -/
def replacementChar : Char :=
  Char.ofNat 0xFFFD

/-- `char::encode_utf16`: one unit in the basic plane, a surrogate pair above it. -/
def encodeCharUtf16 (c : Char) : List UInt16 :=
  if c.val < 0x10000 then [c.val.toUInt16]
  else
    let v := c.val - 0x10000
    [((0xD800 : UInt32) + (v >>> 10)).toUInt16, ((0xDC00 : UInt32) + (v &&& 0x3FF)).toUInt16]

/-- `str::encode_utf16`. -/
def encodeUtf16 (s : List Char) : List UInt16 :=
  s.flatMap encodeCharUtf16

def isHighSurrogate (u : UInt16) : Bool :=
  0xD800 ≤ u && u < 0xDC00

def isLowSurrogate (u : UInt16) : Bool :=
  0xDC00 ≤ u && u < 0xE000

/-- `String::from_utf16_lossy`: `char::decode_utf16`, whose errors are the
    surrogates without their other half, each replaced by U+FFFD. -/
def fromUtf16Lossy : List UInt16 → List Char
  | [] => []
  | [u] => [if isHighSurrogate u || isLowSurrogate u then replacementChar else Char.ofNat u.toNat]
  | u :: v :: rest =>
      if isHighSurrogate u && isLowSurrogate v then
        Char.ofNat (0x10000 + (u.toNat - 0xD800) * 0x400 + (v.toNat - 0xDC00)) :: fromUtf16Lossy rest
      else if isHighSurrogate u || isLowSurrogate u then replacementChar :: fromUtf16Lossy (v :: rest)
      else Char.ofNat u.toNat :: fromUtf16Lossy (v :: rest)

/-- A continuation byte `10xxxxxx`. -/
def isCont (b : UInt8) : Bool :=
  0x80 ≤ b && b < 0xC0

/-- The low six bits of a continuation byte. -/
def contBits (b : UInt8) : Nat :=
  b.toNat % 0x40

/-- `str::from_utf8`: the chars of well-formed UTF-8, which has no overlong
    form, no surrogate and nothing above U+10FFFF. -/
def decodeUtf8 : List UInt8 → Option (List Char)
  | [] => some []
  | b :: rest =>
      if b < 0x80 then (Char.ofNat b.toNat :: ·) <$> decodeUtf8 rest
      else if 0xC2 ≤ b && b < 0xE0 then
        match rest with
        | c :: rest =>
            if isCont c then
              (Char.ofNat ((b.toNat % 0x20) * 0x40 + contBits c) :: ·) <$> decodeUtf8 rest
            else none
        | [] => none
      else if 0xE0 ≤ b && b < 0xF0 then
        match rest with
        | c₁ :: c₂ :: rest =>
            -- `E0` needs a second byte from `A0` on, `ED` one below `A0`
            let lo : UInt8 := if b = 0xE0 then 0xA0 else 0x80
            let hi : UInt8 := if b = 0xED then 0xA0 else 0xC0
            if lo ≤ c₁ && c₁ < hi && isCont c₂ then
              (Char.ofNat ((b.toNat % 0x10) * 0x1000 + contBits c₁ * 0x40 + contBits c₂) :: ·) <$>
                decodeUtf8 rest
            else none
        | _ => none
      else if 0xF0 ≤ b && b < 0xF5 then
        match rest with
        | c₁ :: c₂ :: c₃ :: rest =>
            -- `F0` needs a second byte from `90` on, `F4` one below `90`
            let lo : UInt8 := if b = 0xF0 then 0x90 else 0x80
            let hi : UInt8 := if b = 0xF4 then 0x90 else 0xC0
            if lo ≤ c₁ && c₁ < hi && isCont c₂ && isCont c₃ then
              (Char.ofNat ((b.toNat % 0x08) * 0x40000 + contBits c₁ * 0x1000 + contBits c₂ * 0x40 +
                contBits c₃) :: ·) <$> decodeUtf8 rest
            else none
        | _ => none
      else none

/-- `str::as_bytes`: the UTF-8 bytes. -/
def encodeUtf8 (s : List Char) : List UInt8 :=
  s.flatMap String.utf8EncodeChar

/-- `str::len`: the length in UTF-8 bytes. -/
def utf8Len (s : List Char) : Nat :=
  (s.map Char.utf8Size).sum

/-! ## The basic plane

A char below U+10000 is one UTF-16 unit, which is no surrogate since no char
is; a string of such chars decodes back from its units. -/

/-- The UTF-16 unit of a char of the basic plane. -/
def bmpUnit (c : Char) : UInt16 :=
  c.val.toUInt16

theorem toNat_bmpUnit {c : Char} (h : c.toNat < 0x10000) : (bmpUnit c).toNat = c.toNat := by
  simp only [bmpUnit, UInt32.toNat_toUInt16, Char.toNat] at *
  omega

theorem encodeCharUtf16_of_lt {c : Char} (h : c.toNat < 0x10000) : encodeCharUtf16 c = [bmpUnit c] := by
  have hlt : c.val < 0x10000 := by
    rw [UInt32.lt_iff_toNat_lt]
    exact h
  rw [encodeCharUtf16, if_pos hlt, bmpUnit]

theorem encodeUtf16_of_bmp {s : List Char} (h : ∀ c ∈ s, c.toNat < 0x10000) :
    encodeUtf16 s = s.map bmpUnit := by
  induction s with
  | nil => rfl
  | cons c s ih =>
      rw [encodeUtf16, List.flatMap_cons, encodeCharUtf16_of_lt (h c List.mem_cons_self), List.map_cons]
      exact congrArg _ (ih fun d hd => h d (List.mem_cons_of_mem c hd))

theorem not_surrogate_bmpUnit {c : Char} (h : c.toNat < 0x10000) :
    isHighSurrogate (bmpUnit c) = false ∧ isLowSurrogate (bmpUnit c) = false := by
  have hvalid : c.toNat < 0xd800 ∨ 0xdfff < c.toNat ∧ c.toNat < 0x110000 := c.valid
  have hu := toNat_bmpUnit h
  simp only [isHighSurrogate, isLowSurrogate, Bool.and_eq_false_iff, decide_eq_false_iff_not,
    UInt16.lt_iff_toNat_lt, UInt16.le_iff_toNat_le, hu]
  constructor <;> simp <;> omega

theorem fromUtf16Lossy_cons_of_not_surrogate {u : UInt16} (hh : isHighSurrogate u = false)
    (hl : isLowSurrogate u = false) (us : List UInt16) :
    fromUtf16Lossy (u :: us) = Char.ofNat u.toNat :: fromUtf16Lossy us := by
  cases us with
  | nil => simp [fromUtf16Lossy, hh, hl]
  | cons v rest => simp [fromUtf16Lossy, hh, hl]

theorem fromUtf16Lossy_map_bmpUnit {s : List Char} (h : ∀ c ∈ s, c.toNat < 0x10000) :
    fromUtf16Lossy (s.map bmpUnit) = s := by
  induction s with
  | nil => rfl
  | cons c s ih =>
      have hc := h c List.mem_cons_self
      obtain ⟨hh, hl⟩ := not_surrogate_bmpUnit hc
      rw [List.map_cons, fromUtf16Lossy_cons_of_not_surrogate hh hl, toNat_bmpUnit hc, Char.ofNat_toNat,
        ih fun d hd => h d (List.mem_cons_of_mem c hd)]

theorem length_le_utf8Len (s : List Char) : s.length ≤ utf8Len s := by
  induction s with
  | nil => rfl
  | cons c s ih =>
      have hc := Char.utf8Size_pos c
      simp only [utf8Len, List.map_cons, List.sum_cons, List.length_cons] at *
      omega

end Unicode
