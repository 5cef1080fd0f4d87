import InfluenceDiagrams.Text.Unprintable

/-!
# `InfluenceDiagrams.Text.Quoted` — text in quotes, with escapes

Text that a message quotes is put between single quotes, or between double quotes when it holds a
single quote and no double one. Backslashes and the enclosing quote are escaped, and so is every
unprintable code point.

## Contents
- **`hexDigits`** — a number with a fixed count of hexadecimal digits.
- **`quoted`** — the quoted text.
- **`tuple`, `bracketed`** — a row of items between round or square brackets.
-/

namespace InfluenceDiagrams.Text

/-- The last `width` hexadecimal digits of a number, in lower case. -/
def hexDigits (width n : Nat) : String :=
  String.ofList ((List.range width).reverse.map fun i => Nat.digitChar (n / Nat.pow 16 i % 16))

/-- One code point of a text between the given quotes. -/
def escaped (quote c : Nat) : String :=
  if c = quote || c = 0x5C then String.ofList ['\\', Char.ofNat c]
  else if c = 0x09 then "\\t"
  else if c = 0x0A then "\\n"
  else if c = 0x0D then "\\r"
  else if isUnprintable c then
    if c < 0x100 then "\\x" ++ hexDigits 2 c
    else if c < 0x10000 then "\\u" ++ hexDigits 4 c
    else "\\U" ++ hexDigits 8 c
  else String.singleton (Char.ofNat c)

/-- A text between quotes: single ones unless it holds single quotes only. -/
def quoted (text : List Nat) : String :=
  let quote := if text.contains 0x27 && !text.contains 0x22 then 0x22 else 0x27
  let mark := String.singleton (Char.ofNat quote)
  mark ++ String.join (text.map (escaped quote)) ++ mark

/-- Items between round brackets; a single item is followed by a comma. -/
def tuple : List String → String
  | [x] => "(" ++ x ++ ",)"
  | xs => "(" ++ String.intercalate ", " xs ++ ")"

/-- Items between square brackets. -/
def bracketed (xs : List String) : String := "[" ++ String.intercalate ", " xs ++ "]"

/-- Items between curly brackets. -/
def braced (xs : List String) : String :=
  "\x7b" ++ String.intercalate ", " xs ++ "\x7d"

end InfluenceDiagrams.Text
