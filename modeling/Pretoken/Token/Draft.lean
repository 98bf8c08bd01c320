import Pretoken.Token.Basic

/-!
# Drafts

The glyphs of a token that is still being read.

* `Draft.append`, `Draft.removeLast`: at the end a draft grows and shrinks.
* `Draft.collapse`, `Draft.collapseTwo`: the digraphs at the end become the characters that they
  stand for.
* `Draft.toToken`: the finished token.
-/

namespace Pretoken

/-- The glyphs of an unfinished token, the last one first. -/
structure Draft where
  /-- The glyphs, the last one first. -/
  newestFirst : List Glyph
deriving DecidableEq, Repr

namespace Draft

/-- A draft of nothing. -/
def empty : Draft := ⟨[]⟩

/-- The glyphs in order. -/
def glyphs (d : Draft) : List Glyph := d.newestFirst.reverse

/-- How many glyphs there are. -/
def size (d : Draft) : Nat := d.newestFirst.length

/-- Whether there are no glyphs. -/
def isEmpty (d : Draft) : Bool := d.newestFirst.isEmpty

/-- Add a glyph at the end. -/
def append (d : Draft) (g : Glyph) : Draft := ⟨g :: d.newestFirst⟩

/-- The last glyph. -/
def last? (d : Draft) : Option Glyph := d.newestFirst.head?

/-- The draft without its last glyph. -/
def dropLast (d : Draft) : Draft := ⟨d.newestFirst.tail⟩

/-- Put the character `c` in the place of the last two glyphs. -/
def collapse (d : Draft) (c : Char) : Except Violation Draft :=
  match d.newestFirst with
  | h :: g :: rest => do return ⟨(← Glyph.merge c [g, h]) :: rest⟩
  | _ => .error .shortDigraph

/-- Put the characters `a` and `b` in the place of the last four glyphs, a pair for each. -/
def collapseTwo (d : Draft) (a b : Char) : Except Violation Draft :=
  match d.newestFirst with
  | k :: j :: h :: g :: rest => do
    let first ← Glyph.merge a [g, h]
    let second ← Glyph.merge b [j, k]
    return ⟨second :: first :: rest⟩
  | _ => .error .shortDoubleDigraph

/-- The token made of the draft. -/
def toToken (d : Draft) (kind : TokenKind) : Except Violation Token :=
  if d.isEmpty then .error .emptyDraft else Token.make d.glyphs kind

/-- The text that the draft shows. -/
def text (d : Draft) : Except Violation String :=
  if d.isEmpty then .error .emptyDraftText else .ok (String.ofList (Glyph.spelling d.glyphs))

/-- The draft as a record of its glyphs. -/
def describe (d : Draft) : String :=
  "TokenBuilder \x7b chars: " ++ Glyph.describeAll d.glyphs ++ " \x7d"

@[simp] theorem glyphs_append (d : Draft) (g : Glyph) : (d.append g).glyphs = d.glyphs ++ [g] := by
  simp [append, glyphs]

@[simp] theorem size_append (d : Draft) (g : Glyph) : (d.append g).size = d.size + 1 := rfl

end Draft

end Pretoken
