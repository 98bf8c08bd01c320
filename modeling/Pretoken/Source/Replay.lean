import Pretoken.Source.Basic

/-!
# Replays

A source of glyphs that are known already, such as those of finished tokens. They keep the places
and parts that they have.
-/

namespace Pretoken

/-- Glyphs to be handed out again. -/
structure Replay where
  /-- The glyphs to come, the next one first. -/
  coming : List Glyph
  /-- The file that the end belongs to. -/
  name : Option String
  /-- The location after the last glyph. -/
  finish : Location
deriving DecidableEq, Repr

namespace Replay

/-- The location after the last of some glyphs. -/
def finishOf (gs : List Glyph) : Location :=
  match gs.getLast? with
  | none => .origin
  | some g => match g.value?, g.stop? with
    | some c, some l => l.next c
    | _, _ => .origin

/-- A replay of the given glyphs. -/
def ofGlyphs (gs : List Glyph) (name : Option String) : Replay := ⟨gs, name, finishOf gs⟩

/-- The next glyph; after the last there is an end. -/
def take : ScanM Replay Glyph := fun s =>
  match s.state.coming with
  | g :: gs => .ok g { s with state := { s.state with coming := gs } }
  | [] => .ok (.eof s.state.name []) s

/-- Give back a character. -/
def giveBack (g : Glyph) : ScanM Replay Unit :=
  if g.isEof then throw (.violation .endPushedBack)
  else ScanM.change fun r => { r with coming := g :: r.coming }

/-- The place of the next glyph, if it has one. -/
def location (r : Replay) : Location := (r.coming.head?.bind Glyph.start?).getD r.finish

/-- How many glyphs are to come. -/
def size (r : Replay) : Nat := r.coming.length

theorem take_within : Within (Logged.size size) 0 take Glyph.weight := by
  intro s g s' h
  unfold take at h
  split at h
  · next hr =>
    cases h
    simp only [Logged.size, size, hr, Glyph.weight, List.length_cons]
    split <;> omega
  · cases h; simp [Glyph.weight, Glyph.isEof]

theorem giveBack_within (g : Glyph) : Within (Logged.size size) 1 (giveBack g) fun _ => 0 := by
  unfold giveBack
  split
  · exact .throw _
  · exact ScanM.change_within fun r => by simp only [size, List.length_cons]; omega

instance : Source Replay where
  take := take
  giveBack := giveBack
  location := location
  file? := name
  remaining := size
  take_within := take_within
  giveBack_within := giveBack_within

end Replay

end Pretoken
