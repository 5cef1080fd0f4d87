/-!
# `InfluenceDiagrams.Text.Blank` — blank space around a word

The tag of a node role may be surrounded by blank space. Code points are plain numbers here, so that
text may hold any of them.

## Contents
- **`isBlank`** — the Unicode property `White_Space` together with the four information separators.
- **`trimBlank`** — a text without blank space at its ends.
- **`lowerAscii`** — capital letters of ASCII in lower case.
-/

namespace InfluenceDiagrams.Text

/-- Blank code points: tab to carriage return, the four separators `U+001C` to `U+001F`, space, next
line, and the space, line and paragraph separators of Unicode. -/
def isBlank (c : Nat) : Bool :=
  (0x09 ≤ c && c ≤ 0x0D) || (0x1C ≤ c && c ≤ 0x20) || c == 0x85 || c == 0xA0 || c == 0x1680 ||
  (0x2000 ≤ c && c ≤ 0x200A) || c == 0x2028 || c == 0x2029 || c == 0x202F || c == 0x205F ||
  c == 0x3000

/-- The text between the first and the last code point that is not blank. -/
def trimBlank (text : List Nat) : List Nat :=
  ((text.dropWhile isBlank).reverse.dropWhile isBlank).reverse

/-- Capital ASCII letters become small ones. The only other code point whose lower case is an ASCII
letter is the kelvin sign, which becomes a `k`; so a word without `k` is matched by this map exactly
when it is matched by the lower case of Unicode. -/
def lowerAscii (c : Nat) : Nat := if 0x41 ≤ c && c ≤ 0x5A then c + 0x20 else c

end InfluenceDiagrams.Text
