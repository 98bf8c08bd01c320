import Pretoken.Table.Basic

/-!
# Lexical contexts

* `Table.text`: ordinary text.
* `Table.directive`: the rest of a directive, where a line feed ends it and number signs are
  operators.
* `Table.includeOperand`: the operand of an `include` directive, where a header name may stand.
-/

namespace Pretoken.Table

/-! ## Building blocks -/

/-- The token is complete after one of `chars`. -/
def fixed (chars : CharSet) (kind : TokenKind) : Case := ⟨chars, .finish (.fixed kind)⟩

/-- After one of `chars` a routine reads on. -/
def routine (chars : CharSet) (r : Routine) : Case := ⟨chars, .finish (.routine r)⟩

/-- After one of `chars` the next character decides. -/
def nested (chars : CharSet) (cases : List Case) (otherwise : Rule) : Case :=
  ⟨chars, .nested cases otherwise⟩

/-- The character stands alone, as an operator. -/
def operator : Rule := .fixed .operator

/-- The character begins an identifier. -/
def identifier : Rule := .routine .identifier

/-- The decimal digits. -/
def digit : CharSet := .range '0' '9'

/-- A string literal. -/
def stringLiteral : Routine := .literal '"' .string

/-- A character literal. -/
def charLiteral : Routine := .literal '\'' .character

/-! ## Cases -/

/-- After `u`, `U` or `L`: a literal. -/
def afterWide : List Case :=
  [routine (.one '"') stringLiteral, routine (.one '\'') charLiteral]

/-- After `u`: a literal, perhaps with an `8` before it. -/
def afterU : List Case :=
  nested (.one '8') [routine (.one '"') stringLiteral] identifier :: afterWide

/-- After a slash: a comment or an assignment. -/
def afterSlash : List Case :=
  [routine (.one '*') .blockComment, routine (.one '/') .lineComment, fixed (.one '=') .operator]

/-- After a backslash: a universal character name. -/
def afterBackslash : List Case :=
  [routine (.one 'u') (.universalName 4), routine (.one 'U') (.universalName 8)]

/-- After a dot: a number or an ellipsis. -/
def afterDot : List Case := [routine digit .number, routine (.one '.') .ellipsis]

/-- After `<`: a digraph. -/
def afterLess : List Case :=
  [routine (.one ':') (.digraph .openBracket), routine (.one '%') (.digraph .openBrace)]

/-- After `%`: a digraph, a number sign of the kind `sharp`, or an assignment. -/
def afterPercent (sharp : TokenKind) : List Case :=
  [routine (.one ':') (.sharpDigraph sharp), routine (.one '>') (.digraph .closeBrace),
   fixed (.one '=') .operator]

/-- What starts in the same way in every context. -/
def common : List Case :=
  [nested (.one 'u') afterU identifier,
   nested (.of ['L', 'U']) afterWide identifier,
   routine (.one '"') stringLiteral,
   routine (.one '\'') charLiteral,
   nested (.one '/') afterSlash operator,
   routine (.union [.one '_', .range 'A' 'Z', .range 'a' 'z']) .identifier,
   nested (.one '\\') afterBackslash (.fixed .unknown),
   routine digit .number,
   nested (.one '.') afterDot operator,
   nested (.one ':') [routine (.one '>') (.digraph .closeBracket)] (.fixed .punctuator),
   nested (.one '-') [fixed (.of ['>', '-', '=']) .operator] operator,
   fixed (.one '?') .operator,
   fixed (.of ['[', ']', '(', ')', '\x7b', '\x7d', ',', ';']) .punctuator,
   routine (.one '>') (.shift '>'),
   nested (.one '<') afterLess (.routine (.shift '<')),
   nested (.of ['*', '^', '!', '~', '=']) [fixed (.one '=') .operator] operator,
   nested (.one '+') [fixed (.of ['+', '=']) .operator] operator,
   nested (.one '&') [fixed (.of ['&', '=']) .operator] operator,
   nested (.one '|') [fixed (.of ['|', '=']) .operator] operator]

/-- White space of ordinary text. -/
def textSpace : List Case :=
  [routine (.of [' ', '\t', '\x0c', '\x0b']) .blanks, fixed (.one '\n') .delimiter]

/-- White space of a directive, and its end. -/
def directiveSpace : List Case :=
  [routine (.of [' ', '\t']) .directiveBlanks, fixed (.one '\n') .directiveEnd]

/-- Number signs and percent signs, the former of the kind `sharp`. -/
def sharps (sharp : TokenKind) : List Case :=
  [nested (.one '#') [fixed (.one '#') sharp] (.fixed sharp),
   nested (.one '%') (afterPercent sharp) operator]

/-- Header names. -/
def headerNames : List Case :=
  [routine (.one '"') (.headerName '"' .filename),
   routine (.one '<') (.headerName '>' .standardHeader)]

/-! ## The contexts -/

/-- Ordinary text. -/
def text : Table := compile [textSpace, sharps .punctuator, common]

/-- The rest of a directive, up to and including its line feed. -/
def directive : Table := compile [directiveSpace, sharps .operator, common]

/-- The operand of an `include` directive. -/
def includeOperand : Table := compile [directiveSpace, headerNames, sharps .operator, common]

end Pretoken.Table
