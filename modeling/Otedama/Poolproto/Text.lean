import Otedama.Framework.Utf8

/-! # Pool-controlled text

Strings sent by a pool are sanitised before they are logged, shown or
classified. -/

namespace Otedama.Poolproto

/-- Longest sanitised text, in runes. -/
def maxPoolTextRunes : Nat := 256

/-- The code point ranges of the Unicode category `Cf` (format). -/
def formatRanges : List (Nat × Nat) :=
  [(0x00AD, 0x00AD), (0x0600, 0x0605), (0x061C, 0x061C), (0x06DD, 0x06DD),
   (0x070F, 0x070F), (0x0890, 0x0891), (0x08E2, 0x08E2), (0x180E, 0x180E),
   (0x200B, 0x200F), (0x202A, 0x202E), (0x2060, 0x2064), (0x2066, 0x206F),
   (0xFEFF, 0xFEFF), (0xFFF9, 0xFFFB), (0x110BD, 0x110BD), (0x110CD, 0x110CD),
   (0x13430, 0x1343F), (0x1BCA0, 0x1BCA3), (0x1D173, 0x1D17A), (0xE0001, 0xE0001),
   (0xE0020, 0xE007F)]

/-- Must the rune be stripped? Control and format characters and the line
and paragraph separators. -/
def unsafePoolRune (r : Char) : Bool :=
  let n := r.toNat
  n ≤ 0x1F || (0x7F ≤ n && n ≤ 0x9F) || n == 0x2028 || n == 0x2029 ||
    formatRanges.any fun range => range.1 ≤ n && n ≤ range.2

/-- Strip the unsafe runes and truncate. -/
def sanitizePoolText (s : GoString) : List Char :=
  ((GoString.runes s).filter fun r => !unsafePoolRune r).take maxPoolTextRunes

end Otedama.Poolproto
