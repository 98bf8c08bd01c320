import Pretoken.Token.Basic

/-!
# Reserved words

Which identifiers are reserved depends on the revision of the language, or on the user. A token is
reserved if it is an identifier and its text is one of the reserved words.
-/

namespace Pretoken.Token

/-- The same token with another kind. -/
def withKind (t : Token) (kind : TokenKind) : Token := { t with kind }

/-- The same token with other children. -/
def withChildren (t : Token) (children : List Token) : Token := { t with children }

/-- Whether a token is an identifier or a reserved word. -/
def isWord (t : Token) : Bool := t.kind == .identifier || t.kind == .reserved

/-- An identifier that is one of the `reserved` words becomes a reserved word. -/
def reserve (reserved : List String) (t : Token) : Token :=
  if t.kind = .identifier ∧ t.value ∈ reserved then t.withKind .reserved else t

end Pretoken.Token
