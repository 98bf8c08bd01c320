import Pretoken.Violation

/-!
# Locations and spans

* `Location`: a line and a column, both counted from one; `Location.next` is the location after a
  character.
* `Span`: a stretch of text from a first to a last location, both included.
* `Location.text`, `Span.text`: how they are written in messages: `L1:3`, `L1:3--5`, `L1:3--L2:1`.
-/

namespace Pretoken

/-! ## Locations -/

/-- A place in a text: line and column, both counted from one. -/
@[ext]
structure Location where
  /-- The number of the line. -/
  line : Nat
  /-- The number of the character within its line. -/
  column : Nat
  line_pos : 0 < line := by omega
  column_pos : 0 < column := by omega
deriving DecidableEq, Repr

namespace Location

/-- The first place of a text. -/
def origin : Location where
  line := 1
  column := 1

instance : Inhabited Location := ⟨origin⟩

/-- The location with the given numbers, neither of which may be zero. -/
def make (line column : Nat) : Except Violation Location :=
  if hl : 0 < line then
    if hc : 0 < column then .ok ⟨line, column, hl, hc⟩ else .error .zeroColumn
  else .error .zeroLine

/-- The location of whatever follows the character `c` that stands at `l`: a line feed opens the
next line. -/
def next (l : Location) (c : Char) : Location :=
  if c = '\n' then { line := l.line + 1, column := 1 }
  else { line := l.line, column := l.column + 1, line_pos := l.line_pos }

/-- The location after a whole text that starts at `l`. -/
def after (l : Location) (cs : List Char) : Location := cs.foldl next l

/-- The location `n` columns to the right on the same line. -/
def right (l : Location) (n : Nat) : Location where
  line := l.line
  column := l.column + n
  line_pos := l.line_pos
  column_pos := Nat.add_pos_left l.column_pos n

/-- Locations are ordered by line, then by column. -/
instance : Ord Location := ⟨fun a b => (compare a.line b.line).then (compare a.column b.column)⟩

/-- Written as `L3:14`. -/
def text (l : Location) : String := "L" ++ toString l.line ++ ":" ++ toString l.column

@[simp] theorem after_nil (l : Location) : l.after [] = l := rfl

@[simp] theorem after_cons (l : Location) (c : Char) (cs : List Char) :
    l.after (c :: cs) = (l.next c).after cs := rfl

theorem after_append (l : Location) (cs ds : List Char) :
    l.after (cs ++ ds) = (l.after cs).after ds := List.foldl_append

end Location

/-! ## Spans -/

/-- A stretch of text from `start` to `stop`, both included. -/
@[ext]
structure Span where
  /-- The first location. -/
  start : Location
  /-- The last location. -/
  stop : Location
deriving DecidableEq, Repr

namespace Span

/-- The span of a single place. -/
def point (l : Location) : Span := ⟨l, l⟩

/-- From the start of `first` to the stop of `last`. -/
def between (first last : Span) : Span := ⟨first.start, last.stop⟩

/-- One place is written `L1:3`, a part of a line `L1:3--5`, anything longer `L1:3--L2:1`. -/
def text (s : Span) : String :=
  if s.start.line ≠ s.stop.line then s.start.text ++ "--" ++ s.stop.text
  else if s.start.column = s.stop.column then s.start.text
  else s.start.text ++ "--" ++ toString s.stop.column

/-- The span as a record with all four numbers spelt out. -/
def record (s : Span) : String :=
  let place (l : Location) : String :=
    "SourceLocation \x7b line: " ++ toString l.line ++ ", column: " ++ toString l.column ++ " \x7d"
  "SourceSpan \x7b start: " ++ place s.start ++ ", end: " ++ place s.stop ++ " \x7d"

end Span

end Pretoken
