import Pretoken.Text.Unprinted

/-!
# Quoted text

Messages quote characters and strings so that every character can be told from every other: the
quote, the backslash and the common control characters are escaped by a letter, and what has no
printed form of its own is given by its code point in hexadecimal.

* `quoteChar`: a character between single quotes.
* `quoteString`: a string between double quotes.
-/

namespace Pretoken.Text

/-- Whether a character stands for itself in quoted text, quotes and backslash apart. -/
def isPrinted (c : Char) : Bool :=
  0x20 ≤ c.toNat && (c.toNat < 0x7F || !inRanges unprinted c)

/-- The hexadecimal digits of a number, in lower case and without leading zeros. -/
def hexDigits (n : Nat) : String := String.ofList (Nat.toDigits 16 n)

/-- The spelling of `c` between two `quote` characters. -/
def escape (quote c : Char) : String :=
  if c = '\x00' then "\\0"
  else if c = '\t' then "\\t"
  else if c = '\r' then "\\r"
  else if c = '\n' then "\\n"
  else if c = '\\' then "\\\\"
  else if c = quote then "\\" ++ quote.toString
  else if isPrinted c then c.toString
  else "\\u\x7b" ++ hexDigits c.toNat ++ "\x7d"

/-- A character between single quotes. -/
def quoteChar (c : Char) : String := "'" ++ escape '\'' c ++ "'"

/-- A string between double quotes. -/
def quoteString (s : String) : String :=
  "\"" ++ String.join (s.toList.map (escape '"')) ++ "\""

end Pretoken.Text
