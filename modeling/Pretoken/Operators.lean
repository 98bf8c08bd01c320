import Pretoken.Directive
import Pretoken.Source.File
import Pretoken.Source.Replay

/-!
# Operators on tokens

What the expansion of macros does with finished tokens.

* `Token.paste`: two tokens joined into one.
* `Token.stringize`: the text of some tokens as a string literal.
* `Token.reparseInclude`: the operand of an `include` directive, read again after expansion.
-/

namespace Pretoken.Token

variable {σ : Type} [Alphabet]

/-! ## Joining -/

/-- The tokens of a text, read on its own as ordinary text. -/
def relex (text : String) : ScanM σ (List Token) :=
  ScanM.aside (Scanner.ofSource (File.ofString text none)) (Scanner.readAll .text)

/-- The kind of a text that is a single token; any other text is of no known kind. -/
def kindOf (text : String) : ScanM σ TokenKind := do
  match ← attempt (relex text) with
  | .ok [t] => return t.kind
  | .error (.violation v) => throw (.violation v)
  | _ => return .unknown

/-- The glyphs of two tokens as one token. If its text is not reserved, its kind is that of the text
read on its own. -/
def paste (reserved : List String) (left right : Token) : ScanM σ Token := do
  let draft : Draft := ⟨(left.glyphs ++ right.glyphs).reverse⟩
  let text ← ScanM.require draft.text
  if text ∈ reserved then ScanM.require (draft.toToken .reserved)
  else
    let kind ← kindOf text
    ScanM.require (draft.toToken kind)

/-! ## String literals -/

/-- The tokens from `start` on, up to `stop`. -/
def slice (ts : List Token) (start stop : Nat) : Except Violation (List Token) :=
  if stop < start then .error (.sliceReversed start stop)
  else if ts.length < stop then .error (.sliceTooLong stop ts.length)
  else .ok ((ts.drop start).take (stop - start))

/-- Where the first token is that is no white space. -/
def firstVisible? (ts : List Token) : Option Nat := ts.findIdx? (!·.kind.isSpace)

/-- Where the last token is that is no white space. -/
def lastVisible? (ts : List Token) : Option Nat :=
  (ts.reverse.findIdx? (!·.kind.isSpace)).map (ts.length - 1 - ·)

/-- The tokens without white space at either end. -/
def trim (ts : List Token) : Except Violation (List Token) :=
  let start := (firstVisible? ts).getD ts.length
  slice ts start ((lastVisible? ts).elim start (· + 1))

/-- The glyphs of a token within a string literal: a quote or a backslash has a backslash before
it. -/
def escaped (added : Char → Glyph) (gs : List Glyph) : List Glyph :=
  gs.flatMap fun g => if g.is '\\' || g.is '"' then [added '\\', g] else [g]

/-- The glyphs of some tokens within a string literal. A run of white space is one space; `spaced`
tells whether that space is there already. -/
def literalBody (added : Char → Glyph) : (spaced : Bool) → List Token → List Glyph
  | _, [] => []
  | spaced, t :: ts =>
    if t.kind.isSpace then
      if spaced then literalBody added true ts else added ' ' :: literalBody added true ts
    else escaped added t.glyphs ++ literalBody added false ts

/-- The text of some tokens as a string literal. What is added to their glyphs lies at `place`. -/
def stringize (ts : List Token) (place : Location) : Except Violation Token := do
  let body ← trim ts
  let added c := Glyph.plain c (body.head?.bind file?) place
  make (added '"' :: literalBody added false body ++ [added '"']) .string

/-! ## Operands -/

/-- The glyphs of some tokens, read again as the operand of an `include` directive. -/
def reparseInclude (reserved : List String) (ts : List Token) (file : Option String) :
    ScanM σ (List Token) :=
  ScanM.aside (DirectiveLine.ofScanner (.ofSource (Replay.ofGlyphs (ts.flatMap glyphs) file))) do
    DirectiveLine.readInclude reserved
    ScanM.view DirectiveLine.children

end Pretoken.Token
