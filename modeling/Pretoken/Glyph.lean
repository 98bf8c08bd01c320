import Pretoken.Location
import Pretoken.Text.Quoted

/-!
# Glyphs

A `Glyph` is a character together with the text that it comes from. A `plain` glyph was read as it
stands. A `merged` glyph stands for one or more others: the trigraph or digraph that it replaces, or
a character and the line splices in front of it. The end of a text is a glyph as well; its parts are
the splices that nothing follows.

* `Glyph.leaves`: the plain glyphs that a glyph goes back to, in the order of the text.
* `Glyph.raw`: the text that a glyph goes back to.
* `Glyph.span?`: the stretch of text that a glyph goes back to; an end without parts has none.
* `Glyph.merge`, `Glyph.endAfter`, `Glyph.splice`: the glyphs that stand for others.
-/

namespace Pretoken

/-- A character with its provenance, or the end of a text. -/
inductive Glyph where
  /-- A character as it was read at a place of a file. -/
  | plain (value : Char) (file : Option String) (place : Location)
  /-- A character that stands for its parts. -/
  | merged (value : Char) (parts : List Glyph)
  /-- The end of a file, and the parts that were left when it was reached. -/
  | eof (file : Option String) (parts : List Glyph)
deriving Repr

instance : Inhabited Glyph := ⟨.eof none []⟩

namespace Glyph

/-! ## Equality -/

mutual

/-- Glyphs are equal if they are built alike. -/
def decEq : (g h : Glyph) → Decidable (g = h)
  | plain v f p, plain v' f' p' =>
    decidable_of_iff (v = v' ∧ f = f' ∧ p = p') (by simp)
  | merged v ps, merged v' ps' =>
    have := decEqList ps ps'
    decidable_of_iff (v = v' ∧ ps = ps') (by simp)
  | eof f ps, eof f' ps' =>
    have := decEqList ps ps'
    decidable_of_iff (f = f' ∧ ps = ps') (by simp)
  | plain .., merged .. | plain .., eof .. | merged .., plain ..
  | merged .., eof .. | eof .., plain .. | eof .., merged .. => isFalse nofun

/-- Lists of glyphs are equal if their members are. -/
def decEqList : (gs hs : List Glyph) → Decidable (gs = hs)
  | [], [] => isTrue rfl
  | g :: gs, h :: hs =>
    have := decEq g h
    have := decEqList gs hs
    decidable_of_iff (g = h ∧ gs = hs) (by simp)
  | [], _ :: _ | _ :: _, [] => isFalse nofun

end

instance : DecidableEq Glyph := decEq

/-! ## What a glyph shows -/

/-- The character that the glyph stands for; the end of a text is none. -/
def value? : Glyph → Option Char
  | plain v _ _ | merged v _ => some v
  | eof _ _ => none

/-- Whether the glyph is an end. -/
def isEof : Glyph → Bool
  | eof _ _ => true
  | _ => false

/-- Whether the glyph shows the character `c`. -/
def is (g : Glyph) (c : Char) : Bool := g.value? == some c

/-- What the glyph stands for, one level down. -/
def parts : Glyph → List Glyph
  | plain _ _ _ => []
  | merged _ ps | eof _ ps => ps

/-- The characters that the glyphs show; an end shows none. -/
def spelling (gs : List Glyph) : List Char := gs.filterMap value?

/-! ## Where a glyph comes from -/

mutual

/-- The place where the text of a glyph starts. -/
def start? : Glyph → Option Location
  | plain _ _ p => some p
  | merged _ ps | eof _ ps => firstStart? ps

/-- The place where the text of the first of some glyphs starts. -/
def firstStart? : List Glyph → Option Location
  | [] => none
  | g :: _ => g.start?

end

mutual

/-- The place where the text of a glyph stops. -/
def stop? : Glyph → Option Location
  | plain _ _ p => some p
  | merged _ ps | eof _ ps => lastStop? ps

/-- The place where the text of the last of some glyphs stops. -/
def lastStop? : List Glyph → Option Location
  | [] => none
  | [g] => g.stop?
  | _ :: g :: gs => lastStop? (g :: gs)

end

/-- The stretch of text behind some glyphs, from the start of the first to the stop of the last. -/
def spanAll? (gs : List Glyph) : Option Span :=
  match firstStart? gs, lastStop? gs with
  | some a, some b => some ⟨a, b⟩
  | _, _ => none

/-- The stretch of text behind a glyph. -/
def span? (g : Glyph) : Option Span := spanAll? [g]

mutual

/-- The file that a glyph comes from. -/
def file? : Glyph → Option String
  | plain _ f _ | eof f _ => f
  | merged _ ps => firstFile? ps

/-- The file that the first of some glyphs comes from. -/
def firstFile? : List Glyph → Option String
  | [] => none
  | g :: _ => g.file?

end

mutual

/-- The plain glyphs behind a glyph, in the order of the text. -/
def leaves : Glyph → List Glyph
  | g@(plain _ _ _) => [g]
  | merged _ ps | eof _ ps => leavesAll ps

/-- The plain glyphs behind some glyphs, in the order of the text. -/
def leavesAll : List Glyph → List Glyph
  | [] => []
  | g :: gs => g.leaves ++ leavesAll gs

end

/-- The text behind a glyph. -/
def raw (g : Glyph) : String := String.ofList (spelling g.leaves)

/-! ## Glyphs that stand for others -/

/-- The parts of a glyph have to lie somewhere: there is a first and a last one, and neither is an
end without parts. -/
def checkParts (ps : List Glyph) : Except Violation Unit :=
  if ps.isEmpty then .error .noParts
  else if (firstStart? ps).isSome && (lastStop? ps).isSome then .ok ()
  else .error .bareEndAmongParts

/-- The character `c` in place of `ps`. -/
def merge (c : Char) (ps : List Glyph) : Except Violation Glyph := do
  checkParts ps
  return merged c ps

/-- The end of a file, with parts that nothing follows. -/
def endAfter (file : Option String) (ps : List Glyph) : Except Violation Glyph := do
  checkParts ps
  return eof file ps

/-- The glyph `last` with the `removed` ones in front of it. A character takes itself along as its
last part; an end only keeps what was removed. -/
def splice (removed : List Glyph) (last : Glyph) : Except Violation Glyph :=
  match last.value? with
  | some c => merge c (removed ++ [last])
  | none => endAfter last.file? removed

/-! ## Text for messages -/

mutual

/-- A glyph with its span and its parts: `'#'@L1:1--3['?'@L1:1, '?'@L1:2, '='@L1:3]`. -/
def describe : Glyph → String
  | plain v _ p => Text.quoteChar v ++ "@" ++ p.text
  | merged v ps =>
    Text.quoteChar v ++ "@" ++ ((spanAll? ps).map Span.text).getD "" ++
      "[" ++ ", ".intercalate (describeEach ps) ++ "]"
  | eof _ ps => "EOF[" ++ ", ".intercalate (describeEach ps) ++ "]"

/-- Some glyphs, each with its span and its parts. -/
def describeEach : List Glyph → List String
  | [] => []
  | g :: gs => g.describe :: describeEach gs

end

/-- Some glyphs in brackets, each with its span and its parts. -/
def describeAll (gs : List Glyph) : String := "[" ++ ", ".intercalate (describeEach gs) ++ "]"

/-! ## Basic facts -/

@[simp] theorem value?_plain (v : Char) (f : Option String) (p : Location) :
    (plain v f p).value? = some v := rfl

@[simp] theorem value?_merged (v : Char) (ps : List Glyph) : (merged v ps).value? = some v := rfl

@[simp] theorem value?_eof (f : Option String) (ps : List Glyph) : (eof f ps).value? = none := rfl

theorem value?_eq_none_iff {g : Glyph} : g.value? = none ↔ g.isEof = true := by
  cases g <;> simp [value?, isEof]

theorem isSome_value? (g : Glyph) : g.value?.isSome = !g.isEof := by
  cases g <;> rfl

/-- What is no end is a character. -/
theorem exists_value_of_isEof {g : Glyph} (h : g.isEof = false) : ∃ c, g.value? = some c :=
  Option.isSome_iff_exists.1 (by rw [isSome_value?, h]; rfl)

theorem is_iff {g : Glyph} {c : Char} : g.is c = true ↔ g.value? = some c := by
  simp [is]

theorem isEof_eq_false_of_value? {g : Glyph} {c : Char} (h : g.value? = some c) :
    g.isEof = false := by
  cases g <;> simp_all [isEof]

theorem leavesAll_eq_flatMap (gs : List Glyph) : leavesAll gs = gs.flatMap leaves := by
  induction gs with
  | nil => rfl
  | cons g gs ih => simp [leavesAll, ih]

@[simp] theorem leavesAll_append (gs hs : List Glyph) :
    leavesAll (gs ++ hs) = leavesAll gs ++ leavesAll hs := by
  simp [leavesAll_eq_flatMap]

end Glyph

end Pretoken
