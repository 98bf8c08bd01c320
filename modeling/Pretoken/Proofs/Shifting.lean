import Pretoken.Proofs.TokenSteps
import Pretoken.Proofs.WholeText

/-!
# Text further down

A text that comes after so many lines is the same text with every location moved down. This moves
everything that is made of its characters, and changes nothing else about it.

* `Location.down`, `Span.down`, `Glyph.down`, `Draft.down`, `Token.down`: moved down by some lines.
* `Glyph.value?_down`, `Glyph.span?_down`, `Token.value_down`, `Token.raw_down`: what is kept and what moves.
* `Glyph.merge_down`, `Glyph.splice_down`, `Draft.collapse_down`: glyphs that stand for others.
* `Token.reserve_down`, `LinePlace.mark_down`: what becomes of a token.
-/

namespace Pretoken

/-! ## Places -/

namespace Location

/-- The location `k` lines further down. -/
def down (k : Nat) (l : Location) : Location where
  line := l.line + k
  column := l.column
  line_pos := Nat.add_pos_left l.line_pos k
  column_pos := l.column_pos

theorem next_down (k : Nat) (l : Location) (c : Char) : (l.down k).next c = (l.next c).down k := by
  by_cases hc : c = '\n'
  · ext
    · simp only [next, down, hc, if_true]
      omega
    · simp only [next, down, hc, if_true]
  · simp only [next, down, hc, if_false]

theorem after_down (k : Nat) (l : Location) (cs : List Char) :
    (l.down k).after cs = (l.after cs).down k := by
  induction cs generalizing l with
  | nil => rfl
  | cons c cs ih => rw [after_cons, after_cons, next_down, ih]

end Location

/-- The span `k` lines further down. -/
def Span.down (k : Nat) (s : Span) : Span := ⟨s.start.down k, s.stop.down k⟩

/-! ## Glyphs -/

namespace Glyph

mutual

/-- The glyph `k` lines further down, with all that it goes back to. -/
def down (k : Nat) : Glyph → Glyph
  | plain c file place => plain c file (place.down k)
  | merged c ps => merged c (downAll k ps)
  | eof file ps => eof file (downAll k ps)

/-- Some glyphs `k` lines further down. -/
def downAll (k : Nat) : List Glyph → List Glyph
  | [] => []
  | g :: gs => g.down k :: downAll k gs

end

variable (k : Nat)

@[simp] theorem downAll_eq_map (gs : List Glyph) : downAll k gs = gs.map (down k) := by
  induction gs with
  | nil => rfl
  | cons g gs ih => rw [downAll, ih, List.map_cons]

@[simp] theorem value?_down (g : Glyph) : (g.down k).value? = g.value? := by
  cases g <;> simp [down]

@[simp] theorem isEof_down (g : Glyph) : (g.down k).isEof = g.isEof := by
  cases g <;> rfl

@[simp] theorem is_down (g : Glyph) (c : Char) : (g.down k).is c = g.is c := by
  rw [is, is, value?_down]

@[simp] theorem spelling_down (gs : List Glyph) : spelling (gs.map (down k)) = spelling gs := by
  rw [spelling, spelling, List.filterMap_map]
  exact congrArg (List.filterMap · gs) (funext fun g => value?_down k g)

mutual

theorem down_zero : (g : Glyph) → g.down 0 = g
  | plain _ _ _ => rfl
  | merged _ ps => by rw [down, downAll_zero ps]
  | eof _ ps => by rw [down, downAll_zero ps]

theorem downAll_zero : (gs : List Glyph) → downAll 0 gs = gs
  | [] => rfl
  | g :: gs => by rw [downAll, down_zero g, downAll_zero gs]

end

mutual

theorem start?_down : (g : Glyph) → (g.down k).start? = g.start?.map (Location.down k)
  | plain _ _ _ => rfl
  | merged _ ps => firstStart?_down ps
  | eof _ ps => firstStart?_down ps

theorem firstStart?_down :
    (gs : List Glyph) → firstStart? (downAll k gs) = (firstStart? gs).map (Location.down k)
  | [] => rfl
  | g :: _ => start?_down g

end

mutual

theorem stop?_down : (g : Glyph) → (g.down k).stop? = g.stop?.map (Location.down k)
  | plain _ _ _ => rfl
  | merged _ ps => lastStop?_down ps
  | eof _ ps => lastStop?_down ps

theorem lastStop?_down :
    (gs : List Glyph) → lastStop? (downAll k gs) = (lastStop? gs).map (Location.down k)
  | [] => rfl
  | [g] => stop?_down g
  | _ :: g :: gs => lastStop?_down (g :: gs)

end

mutual

theorem file?_down : (g : Glyph) → (g.down k).file? = g.file?
  | plain _ _ _ => rfl
  | merged _ ps => firstFile?_down ps
  | eof _ _ => rfl

theorem firstFile?_down : (gs : List Glyph) → firstFile? (downAll k gs) = firstFile? gs
  | [] => rfl
  | g :: _ => file?_down g

end

mutual

theorem leaves_down : (g : Glyph) → (g.down k).leaves = g.leaves.map (down k)
  | plain _ _ _ => rfl
  | merged _ ps => leavesAll_down ps
  | eof _ ps => leavesAll_down ps

theorem leavesAll_down : (gs : List Glyph) → leavesAll (downAll k gs) = (leavesAll gs).map (down k)
  | [] => rfl
  | g :: gs => by rw [downAll, leavesAll, leavesAll, leaves_down g, leavesAll_down gs, List.map_append]

end

/-- The stretch of text behind a glyph moves. -/
theorem span?_down (g : Glyph) : (g.down k).span? = g.span?.map (Span.down k) := by
  have hall : spanAll? (downAll k [g]) = (spanAll? [g]).map (Span.down k) := by
    rw [spanAll?, spanAll?, firstStart?_down, lastStop?_down]
    cases firstStart? [g] <;> cases lastStop? [g] <;> rfl
  exact hall

theorem checkParts_down (ps : List Glyph) : checkParts (ps.map (down k)) = checkParts ps := by
  rw [checkParts, checkParts, List.isEmpty_map, ← downAll_eq_map, firstStart?_down, lastStop?_down,
    Option.isSome_map, Option.isSome_map]

theorem merge_down (c : Char) (ps : List Glyph) :
    merge c (ps.map (down k)) = (merge c ps).map (down k) := by
  rw [merge, merge, checkParts_down]
  cases checkParts ps with
  | ok => exact congrArg (Except.ok ∘ merged c) (downAll_eq_map k ps).symm
  | error v => rfl

theorem endAfter_down (file : Option String) (ps : List Glyph) :
    endAfter file (ps.map (down k)) = (endAfter file ps).map (down k) := by
  rw [endAfter, endAfter, checkParts_down]
  cases checkParts ps with
  | ok => exact congrArg (Except.ok ∘ eof file) (downAll_eq_map k ps).symm
  | error v => rfl

theorem splice_down (removed : List Glyph) (last : Glyph) :
    splice (removed.map (down k)) (last.down k) = (splice removed last).map (down k) := by
  rw [splice, splice, value?_down, file?_down]
  cases last.value? with
  | none => exact endAfter_down k _ removed
  | some c =>
    have happ : removed.map (down k) ++ [last.down k] = (removed ++ [last]).map (down k) := by
      rw [List.map_append, List.map_singleton]
    dsimp only
    rw [happ, merge_down]

theorem inscribe_down (name : Option String) (l : Location) (cs : List Char) :
    inscribe name (l.down k) cs = (inscribe name l cs).map (down k) := by
  induction cs generalizing l with
  | nil => rfl
  | cons c cs ih =>
    rw [inscribe, inscribe, Location.next_down, ih, List.map_cons]
    rfl

end Glyph

/-! ## Drafts -/

namespace Draft

/-- The draft `k` lines further down. -/
def down (k : Nat) (d : Draft) : Draft := ⟨d.newestFirst.map (Glyph.down k)⟩

variable (k : Nat) (d : Draft)

theorem collapse_down (c : Char) : (d.down k).collapse c = (d.collapse c).map (down k) := by
  obtain ⟨gs⟩ := d
  match gs with
  | [] => rfl
  | [_] => rfl
  | h :: g :: rest =>
    have hm := Glyph.merge_down k c [g, h]
    simp only [List.map_cons, List.map_nil] at hm
    simp only [collapse, down, List.map_cons, hm]
    cases Glyph.merge c [g, h] <;> rfl

theorem collapseTwo_down (a b : Char) :
    (d.down k).collapseTwo a b = (d.collapseTwo a b).map (down k) := by
  obtain ⟨gs⟩ := d
  match gs with
  | [] => rfl
  | [_] => rfl
  | [_, _] => rfl
  | [_, _, _] => rfl
  | y :: x :: h :: g :: rest =>
    have hm := Glyph.merge_down k a [g, h]
    have hn := Glyph.merge_down k b [x, y]
    simp only [List.map_cons, List.map_nil] at hm hn
    simp only [collapseTwo, down, List.map_cons, hm, hn]
    cases Glyph.merge a [g, h] with
    | error v => rfl
    | ok first => cases Glyph.merge b [x, y] <;> rfl

end Draft

/-! ## Tokens -/

namespace Token

mutual

/-- The token `k` lines further down, with its children. -/
def down (k : Nat) : Token → Token
  | ⟨gs, kind, cs⟩ => ⟨gs.map (Glyph.down k), kind, downAll k cs⟩

/-- Some tokens `k` lines further down. -/
def downAll (k : Nat) : List Token → List Token
  | [] => []
  | t :: ts => t.down k :: downAll k ts

end

variable (k : Nat)

@[simp] theorem downAll_eq_map (ts : List Token) : downAll k ts = ts.map (down k) := by
  induction ts with
  | nil => rfl
  | cons t ts ih => rw [downAll, ih, List.map_cons]

@[simp] theorem glyphs_down (t : Token) : (t.down k).glyphs = t.glyphs.map (Glyph.down k) := by
  cases t
  rfl

@[simp] theorem kind_down (t : Token) : (t.down k).kind = t.kind := by
  cases t
  rfl

theorem withKind_down (t : Token) (kind : TokenKind) :
    (t.withKind kind).down k = (t.down k).withKind kind := by
  cases t
  rfl

theorem withChildren_down (t : Token) (ts : List Token) :
    (t.withChildren ts).down k = (t.down k).withChildren (ts.map (down k)) := by
  rw [← downAll_eq_map]
  cases t
  rfl

@[simp] theorem value_down (t : Token) : (t.down k).value = t.value := by
  rw [value, value, glyphs_down, Glyph.spelling_down]

mutual

theorem down_zero : (t : Token) → t.down 0 = t
  | ⟨gs, _, cs⟩ => by
    rw [down, ← Glyph.downAll_eq_map, Glyph.downAll_zero, downAll_zero cs]

theorem downAll_zero : (ts : List Token) → downAll 0 ts = ts
  | [] => rfl
  | t :: ts => by rw [downAll, down_zero t, downAll_zero ts]

end

theorem map_down_zero (ts : List Token) : ts.map (down 0) = ts := by
  rw [← downAll_eq_map, downAll_zero]

mutual

theorem leaves_down : (t : Token) → (t.down k).leaves = t.leaves.map (Glyph.down k)
  | ⟨gs, _, cs⟩ => by
    rw [down, leaves, leaves, ← Glyph.downAll_eq_map, Glyph.leavesAll_down, leavesAll_down cs,
      List.map_append]

theorem leavesAll_down : (ts : List Token) →
    leavesAll (downAll k ts) = (leavesAll ts).map (Glyph.down k)
  | [] => rfl
  | t :: ts => by rw [downAll, leavesAll, leavesAll, leaves_down t, leavesAll_down ts, List.map_append]

end

/-- The text behind a token stays. -/
theorem raw_down (t : Token) : (t.down k).raw = t.raw := by
  rw [raw, raw, leaves_down, Glyph.spelling_down]

theorem make_down (gs : List Glyph) (kind : TokenKind) :
    make (gs.map (Glyph.down k)) kind = (make gs kind).map (down k) := by
  have hany : (gs.map (Glyph.down k)).any Glyph.isEof = gs.any Glyph.isEof := by
    rw [List.any_map]
    exact congrArg (List.any gs) (funext fun g => Glyph.isEof_down k g)
  rw [make, make, List.isEmpty_map, hany]
  split
  · rfl
  · split <;> rfl

theorem reserve_down (reserved : List String) (t : Token) :
    (t.down k).reserve reserved = (t.reserve reserved).down k := by
  rw [reserve, reserve, value_down, kind_down]
  split
  · exact (withKind_down k t _).symm
  · rfl

end Token

theorem Draft.toToken_down (k : Nat) (d : Draft) (kind : TokenKind) :
    (d.down k).toToken kind = (d.toToken kind).map (Token.down k) := by
  have hg : (d.down k).glyphs = d.glyphs.map (Glyph.down k) := by
    rw [glyphs, glyphs, down, List.map_reverse]
  have he : (d.down k).isEmpty = d.isEmpty := List.isEmpty_map
  rw [toToken, toToken, he, hg, Token.make_down]
  split <;> rfl

namespace LinePlace

theorem mark_down (k : Nat) (place : LinePlace) (t : Token) :
    place.mark (t.down k) = (place.mark t).down k := by
  rw [mark, mark, names, names, Token.value_down, Token.kind_down]
  split
  · exact (Token.withKind_down k t _).symm
  · rfl

theorem next_down (k : Nat) (place : LinePlace) (t : Token) :
    place.next (t.down k) = place.next t := by
  rw [next, next, Token.value_down, Token.kind_down]

end LinePlace

end Pretoken
