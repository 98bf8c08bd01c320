import Pretoken.CharClass
import Pretoken.Token.Kind

/-!
# Tables

What a token is depends on the characters that it starts with. A lexical context lists cases, each a
set of characters and what to do after one of them; the first case that contains the character
decides. For the characters of ASCII the decision is worked out beforehand.

* `CharSet`: sets of characters; `CharSet.contains`.
* `Action`, `Case`: what to do after a character, and for which characters.
* `find`: the action of the first case that contains a character.
* **`Table.compile`**, **`Table.lookup`**: the same, through an index over ASCII.
-/

namespace Pretoken

/-! ## Sets of characters -/

/-- A set of characters. -/
inductive CharSet where
  /-- One character. -/
  | one (c : Char)
  /-- Each of some characters. -/
  | of (cs : List Char)
  /-- All characters from `lo` to `hi`, both included. -/
  | range (lo hi : Char)
  /-- What is in one of some sets. -/
  | union (sets : List CharSet)
deriving Repr

mutual

/-- Whether a character is in a set. -/
def CharSet.contains : CharSet → Char → Bool
  | .one a, c => a == c
  | .of cs, c => cs.contains c
  | .range lo hi, c => lo ≤ c && c ≤ hi
  | .union sets, c => CharSet.anyContains sets c

/-- Whether a character is in one of some sets. -/
def CharSet.anyContains : List CharSet → Char → Bool
  | [], _ => false
  | s :: ss, c => s.contains c || CharSet.anyContains ss c

end

/-! ## Cases -/

/-- Ways to read the rest of a token of which the length is not fixed. -/
inductive Routine where
  /-- A run of white space. -/
  | blanks
  /-- A run of white space in a directive. -/
  | directiveBlanks
  /-- After the opening of a comment: all up to its closing. -/
  | blockComment
  /-- After two slashes: the rest of the line. -/
  | lineComment
  /-- After an opening quote: all up to the closing one. -/
  | literal (quote : Char) (kind : TokenKind)
  /-- After the opening of a header name: all up to `closing`. -/
  | headerName (closing : Char) (kind : TokenKind)
  /-- After the start of an identifier: the rest of it. -/
  | identifier
  /-- After a backslash and a letter: so many digits, and an identifier. -/
  | universalName (digits : Nat)
  /-- After the start of a number: the rest of it. -/
  | number
  /-- After two dots: a third one. -/
  | ellipsis
  /-- After the two characters of a digraph. -/
  | digraph (digraph : Digraph)
  /-- After the digraph of a number sign: perhaps a second one. -/
  | sharpDigraph (kind : TokenKind)
  /-- After `<` or `>`: perhaps the same again, perhaps an equals sign. -/
  | shift (c : Char)
deriving DecidableEq, Repr

/-- How a token is completed. -/
inductive Rule where
  /-- It is complete, and of this kind. -/
  | fixed (kind : TokenKind)
  /-- More has to be read. -/
  | routine (routine : Routine)
deriving DecidableEq, Repr

mutual

/-- What to do after a character. -/
inductive Action where
  /-- Complete the token. -/
  | finish (rule : Rule)
  /-- Look at one more character. If no case contains it, it is not part of the token. -/
  | nested (cases : List Case) (otherwise : Rule)

/-- What to do after a character of a set. -/
structure Case where
  /-- The set. -/
  chars : CharSet
  /-- What to do. -/
  action : Action

end

/-- The action of the first case that contains `c`. -/
def find (cases : List Case) (c : Char) : Option Action :=
  (cases.find? fun case => case.chars.contains c).map Case.action

/-! ## Compiled tables -/

/-- Groups of cases, with an index over the characters of ASCII: the number of the group and the
number of the case within it. -/
structure Table where
  /-- The cases. -/
  groups : List (List Case)
  /-- Where the case for each character of ASCII is found. -/
  index : Vector (Option (UInt8 × UInt8)) 128

namespace Table

/-- The numbers of the first group with a case that contains `c`, and of that case. -/
def position? (groups : List (List Case)) (c : Char) : Option (UInt8 × UInt8) :=
  groups.zipIdx.findSome? fun (cases, g) =>
    (cases.findIdx? fun case => case.chars.contains c).map fun i => (g.toUInt8, i.toUInt8)

/-- The table of some groups of cases. -/
def compile (groups : List (List Case)) : Table where
  groups
  index := .ofFn fun n => position? groups (Char.ofNat n)

/-- The action for a character of ASCII. -/
def lookup (t : Table) (c : Char) : Option Action :=
  if h : c.toNat < 128 then do
    let (g, i) ← t.index[c.toNat]
    let cases ← t.groups[g.toNat]?
    let case ← cases[i.toNat]?
    return case.action
  else none

end Table

end Pretoken
