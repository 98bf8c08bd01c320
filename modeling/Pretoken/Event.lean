import Pretoken.Location
import Pretoken.Text.Quoted

/-!
# Events

What a scan notes down on its way: each replacement that it makes, each directive that it meets, and
each construct that the input leaves incomplete. `Event.line` is the line of the log.
-/

namespace Pretoken

/-- Something worth a line in the log. -/
inductive Event where
  /-- The trigraph `raw` was replaced by a character. -/
  | trigraph (raw : String) (value : Char)
  /-- A backslash and a line feed were deleted; the text goes on at `place`. -/
  | splice (place : Location)
  /-- A universal character name lacks digits; the next character stands at `place`. -/
  | incompleteName (place : Location)
  /-- The input ended within a directive. -/
  | directiveTruncated
  /-- The input ended before the operand of an `include` directive. -/
  | includeTruncated
  /-- A directive has a name that is not known. -/
  | unknownDirective (name : String) (span : Span)
  /-- A directive has a known name. -/
  | directive (name : String) (span : Span)
deriving DecidableEq, Repr

/-- The line of the log: the level, then what happened. -/
def Event.line : Event → String
  | trigraph raw value =>
    "TRACE trigraph " ++ Text.quoteString raw ++ " replaced by " ++ Text.quoteChar value
  | splice place => "TRACE line splice at " ++ place.text
  | incompleteName place => "TRACE incomplete universal character name at " ++ place.text
  | directiveTruncated => "DEBUG directive truncated at end of input"
  | includeTruncated => "DEBUG include directive truncated at end of input"
  | unknownDirective name span =>
    "DEBUG invalid directive name " ++ Text.quoteString name ++ " at " ++ span.text
  | directive name span => "DEBUG #" ++ name ++ " directive at " ++ span.text

end Pretoken
