import TestExecutor.Library.LittleEndian

/-!
# UTF-16 in byte strings

Strings as lists of UTF-16 code units, their little-endian bytes, and the decoder that replaces
what is not well formed.

* `WellFormedUtf16` — every surrogate is half of a pair;
* `utf16Bytes`, `utf16Units` — code units to bytes and back;
* `utf16GetString` — decoding with replacement;
* `utf16GetString_utf16Bytes` — a well-formed string is read back as it was written.
-/

namespace TestExecutor.Library

def isHighSurrogate (c : UInt16) : Bool := 0xD800 ≤ c && c ≤ 0xDBFF

def isLowSurrogate (c : UInt16) : Bool := 0xDC00 ≤ c && c ≤ 0xDFFF

/-- Every surrogate is half of a pair. -/
def WellFormedUtf16 : List UInt16 → Bool
  | [] => true
  | [c] => !isHighSurrogate c && !isLowSurrogate c
  | c :: d :: ds =>
      if isHighSurrogate c then isLowSurrogate d && WellFormedUtf16 ds
      else !isLowSurrogate c && WellFormedUtf16 (d :: ds)

/-- A surrogate without its other half becomes U+FFFD. -/
def replaceLoneSurrogates : List UInt16 → List UInt16
  | [] => []
  | [c] => [if isHighSurrogate c || isLowSurrogate c then 0xFFFD else c]
  | c :: d :: ds =>
      if isHighSurrogate c then
        if isLowSurrogate d then c :: d :: replaceLoneSurrogates ds
        else 0xFFFD :: replaceLoneSurrogates (d :: ds)
      else (if isLowSurrogate c then 0xFFFD else c) :: replaceLoneSurrogates (d :: ds)

/-- The little-endian bytes of the code units. -/
def utf16Bytes (units : List UInt16) : List UInt8 := units.flatMap fun c => leBytes 2 c.toNat

/-- The code units of a byte string; a byte left over at the end becomes U+FFFD. -/
def utf16Units : List UInt8 → List UInt16
  | [] => []
  | [_] => [0xFFFD]
  | b₀ :: b₁ :: bs => UInt16.ofNat (leNat [b₀, b₁]) :: utf16Units bs

/-- `Encoding.Unicode.GetString`. -/
def utf16GetString (bs : List UInt8) : List UInt16 := replaceLoneSurrogates (utf16Units bs)

theorem replaceLoneSurrogates_of_wellFormed (units : List UInt16) (h : WellFormedUtf16 units) :
    replaceLoneSurrogates units = units := by
  induction units using replaceLoneSurrogates.induct with
  | case1 => rfl
  | case2 c => simp [WellFormedUtf16] at h; simp [replaceLoneSurrogates, h]
  | case3 c d ds hc hd ih =>
      simp only [WellFormedUtf16, hc, hd, if_true, Bool.true_and] at h
      simp [replaceLoneSurrogates, hc, hd, ih h]
  | case4 c d ds hc hd _ => simp [WellFormedUtf16, hc, hd] at h
  | case5 c d ds hc ih =>
      simp only [WellFormedUtf16, hc, Bool.false_eq_true, if_false, Bool.and_eq_true,
        Bool.not_eq_true'] at h
      simp [replaceLoneSurrogates, hc, h.1, ih h.2]

theorem utf16Units_utf16Bytes (units : List UInt16) : utf16Units (utf16Bytes units) = units := by
  induction units with
  | nil => rfl
  | cons c cs ih =>
      have hc : leNat (leBytes 2 c.toNat) = c.toNat := leNat_leBytes_of_lt c.toNat_lt
      rw [utf16Bytes, List.flatMap_cons, ← utf16Bytes]
      show UInt16.ofNat (leNat (leBytes 2 c.toNat)) :: utf16Units (utf16Bytes cs) = c :: cs
      rw [hc, ih, UInt16.ofNat_toNat]

@[simp] theorem utf16Bytes_length (units : List UInt16) :
    (utf16Bytes units).length = 2 * units.length := by
  induction units with
  | nil => rfl
  | cons c cs ih =>
      rw [utf16Bytes, List.flatMap_cons, ← utf16Bytes, List.length_append, ih, leBytes_length,
        List.length_cons]
      omega

theorem utf16Bytes_append (a b : List UInt16) :
    utf16Bytes (a ++ b) = utf16Bytes a ++ utf16Bytes b := List.flatMap_append

/-- **A well-formed string is read back as it was written.** -/
theorem utf16GetString_utf16Bytes (units : List UInt16) (h : WellFormedUtf16 units) :
    utf16GetString (utf16Bytes units) = units := by
  rw [utf16GetString, utf16Units_utf16Bytes, replaceLoneSurrogates_of_wellFormed units h]

end TestExecutor.Library
