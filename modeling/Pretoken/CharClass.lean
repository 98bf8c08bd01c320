import Pretoken.Text.IdentContinue
import Pretoken.Text.IdentStart

/-!
# Classes of characters and digraphs

* `isBlank`, `isDirectiveBlank`: white space within a line, outside and inside of a directive.
* `isOctal`, `isHex`, `isExponent`: characters of numbers.
* `Alphabet`: the characters beyond ASCII that identifiers are made of.
* `Alphabet.unicode`: those of Unicode, for programs that are run.
* `isIdentStart`, `isIdentContinue`: characters of identifiers.
* `Digraph`: the two-character spellings of brackets, braces and the number sign.
-/

namespace Pretoken

/-! ## Classes -/

/-- White space within a line: space, tab, form feed and vertical tab. -/
def isBlank (c : Char) : Bool := c == ' ' || c == '\t' || c == '\x0c' || c == '\x0b'

/-- White space within a directive: space and tab. -/
def isDirectiveBlank (c : Char) : Bool := c == ' ' || c == '\t'

/-- The digits of octal numbers. -/
def isOctal (c : Char) : Bool := '0' ≤ c && c ≤ '7'

/-- The decimal digits. -/
def isDigit (c : Char) : Bool := '0' ≤ c && c ≤ '9'

/-- The digits of hexadecimal numbers, in either case. -/
def isHex (c : Char) : Bool := isDigit c || ('a' ≤ c && c ≤ 'f') || ('A' ≤ c && c ≤ 'F')

/-- The letters of the Latin alphabet, in either case. -/
def isLetter (c : Char) : Bool := ('a' ≤ c && c ≤ 'z') || ('A' ≤ c && c ≤ 'Z')

/-- Whether a character belongs to ASCII. -/
def isAscii (c : Char) : Bool := c.toNat < 128

/-- The characters beyond ASCII that identifiers are made of. -/
class Alphabet where
  /-- What may begin an identifier. -/
  begins : Char → Bool
  /-- What may stand in an identifier after its first character. -/
  continues : Char → Bool

/-- The letters of all scripts; combining marks and connectors may follow them. -/
instance Alphabet.unicode : Alphabet where
  begins := Text.inRanges Text.identStart
  continues c := Text.inRanges Text.identStart c || Text.inRanges Text.identContinueOnly c

/-- What may begin an identifier: an underscore, a letter, or a letter of another script. -/
def isIdentStart [Alphabet] (c : Char) : Bool :=
  if isAscii c then c == '_' || isLetter c else Alphabet.begins c

/-- What may stand in an identifier after its first character: also digits, combining marks and
connectors. -/
def isIdentContinue [Alphabet] (c : Char) : Bool :=
  if isAscii c then c == '_' || isLetter c || isDigit c else Alphabet.continues c

/-- The letters that open an exponent; a sign may follow them. -/
def isExponent (c : Char) : Bool := c == 'e' || c == 'E' || c == 'p' || c == 'P'

/-! ## Digraphs -/

/-- The alternative spellings of punctuators. -/
inductive Digraph where
  | openBracket
  | closeBracket
  | openBrace
  | closeBrace
  | sharp
  | doubleSharp
deriving DecidableEq, Repr

namespace Digraph

/-- All digraphs. -/
def all : List Digraph := [openBracket, closeBracket, openBrace, closeBrace, sharp, doubleSharp]

/-- How the digraph is written. -/
def spelling : Digraph → String
  | openBracket => "<:"
  | closeBracket => ":>"
  | openBrace => "<%"
  | closeBrace => "%>"
  | sharp => "%:"
  | doubleSharp => "%:%:"

/-- The character that each pair of the spelling stands for. -/
def primary : Digraph → Char
  | openBracket => '['
  | closeBracket => ']'
  | openBrace => '\x7b'
  | closeBrace => '\x7d'
  | sharp | doubleSharp => '#'

/-- A short label. -/
def label : Digraph → String
  | openBracket => "LSqu"
  | closeBracket => "RSqu"
  | openBrace => "LCur"
  | closeBrace => "RCur"
  | sharp => "Sharp"
  | doubleSharp => "Sharps"

end Digraph

end Pretoken
