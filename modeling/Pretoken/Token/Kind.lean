/-!
# Kinds of tokens
-/

namespace Pretoken

/-- What a preprocessing token is. -/
inductive TokenKind where
  | character
  | comment
  | delimiter
  /-- The number sign of a directive, with the rest of the line as children. -/
  | directive
  | directiveName
  /-- The line feed that ends a directive. -/
  | directiveEnd
  | filename
  | identifier
  | number
  /-- Digits of a line number. -/
  | digits
  | operator
  | punctuator
  | reserved
  | standardHeader
  | string
  | unknown
deriving DecidableEq, Repr

namespace TokenKind

/-- All kinds. -/
def all : List TokenKind :=
  [character, comment, delimiter, directive, directiveName, directiveEnd, filename, identifier,
   number, digits, operator, punctuator, reserved, standardHeader, string, unknown]

/-- The name of a kind. -/
def name : TokenKind → String
  | character => "CHARACTER"
  | comment => "COMMENT"
  | delimiter => "DELIMITER"
  | directive => "DIRECTIVE"
  | directiveName => "DIRECTIVE_NAME"
  | directiveEnd => "DIRECTIVE_END"
  | filename => "FILENAME"
  | identifier => "IDENTIFIER"
  | number => "NUMBER"
  | digits => "DIGITS"
  | operator => "OPERATOR"
  | punctuator => "PUNCTUATOR"
  | reserved => "RESERVED"
  | standardHeader => "STANDARD_HEADER"
  | string => "STRING"
  | unknown => "UNKNOWN"

/-- The name of a kind in mixed case. -/
def label : TokenKind → String
  | character => "Character"
  | comment => "Comment"
  | delimiter => "Delimiter"
  | directive => "Directive"
  | directiveName => "DirectiveName"
  | directiveEnd => "DirectiveEnd"
  | filename => "Filename"
  | identifier => "Identifier"
  | number => "Number"
  | digits => "Digits"
  | operator => "Operator"
  | punctuator => "Punctuator"
  | reserved => "Reserved"
  | standardHeader => "StandardHeader"
  | string => "String"
  | unknown => "Unknown"

/-- White space, for which a comment counts as well. -/
def isSpace : TokenKind → Bool
  | delimiter | comment => true
  | _ => false

end TokenKind

end Pretoken
