/-!
# Broken contracts

Some operations have a precondition that their caller promises: a token has characters, an end of
input is never pushed back. A call that breaks its promise yields a `Violation`, whose `message`
states the promise.
-/

namespace Pretoken

/-- A precondition that a caller did not keep. -/
inductive Violation where
  /-- A line number was zero. -/
  | zeroLine
  /-- A column number was zero. -/
  | zeroColumn
  /-- A glyph was to stand for no glyph at all. -/
  | noParts
  /-- The first or the last glyph that a glyph was to stand for has no place in the text. -/
  | bareEndAmongParts
  /-- An end of input was pushed back. -/
  | endPushedBack
  /-- A token was made of no glyphs. -/
  | emptyToken
  /-- A token was made of glyphs with an end of input among them. -/
  | endInToken
  /-- A digraph was collapsed in a draft of fewer than two glyphs. -/
  | shortDigraph
  /-- A double digraph was collapsed in a draft of fewer than four glyphs. -/
  | shortDoubleDigraph
  /-- A token was made of an empty draft. -/
  | emptyDraft
  /-- The text of an empty draft was asked for. -/
  | emptyDraftText
  /-- Some tokens were to be taken up to `stop`, which lies before the first of them. -/
  | sliceReversed (start stop : Nat)
  /-- Some tokens were to be taken up to `stop`, where there were only `length`. -/
  | sliceTooLong (stop length : Nat)
deriving DecidableEq, Repr

/-- The promise that was broken. -/
def Violation.message : Violation → String
  | zeroLine => "line must be greater than 0"
  | zeroColumn => "column must be greater than 0"
  | noParts => "children must not be empty"
  | bareEndAmongParts => "children must not contain a bare EOF"
  | endPushedBack => "cannot push back EOF"
  | emptyToken => "a token needs at least one character"
  | endInToken => "a token cannot contain EOF"
  | shortDigraph => "a digraph needs two characters"
  | shortDoubleDigraph => "a double digraph needs four characters"
  | emptyDraft => "cannot build a token from nothing"
  | emptyDraftText => "cannot render an empty builder"
  | sliceReversed start stop => s!"slice index starts at {start} but ends at {stop}"
  | sliceTooLong stop length => s!"range end index {stop} out of range for slice of length {length}"

end Pretoken
