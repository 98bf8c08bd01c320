import Pretoken.Bytes.LineReader
import Pretoken.Source.Basic

/-!
# Files

The lowest source: characters read from bytes, each with its line and column. Glyphs given back are
handed out again before anything else is read.
-/

namespace Pretoken

/-- A file that is being read. -/
structure File where
  /-- Where the characters come from. -/
  reader : LineReader
  /-- The name of the file. -/
  name : Option String
  /-- The location of the next character of the reader. -/
  place : Location
  /-- Glyphs given back, the next one first. -/
  returned : List Glyph

namespace File

/-- A file at its beginning. -/
def ofFeed (feed : Feed) (name : Option String) : File where
  reader := .ofFeed feed
  name
  place := .origin
  returned := []

/-- A file with the given text. -/
def ofString (text : String) (name : Option String) : File :=
  ofFeed [.bytes text.toUTF8.toList] name

/-- What has not been read of the feed. -/
def feed (f : File) : Feed := f.reader.decoder.feed

/-- A bound on the number of characters still to come. -/
def size (f : File) : Nat := f.returned.length + f.reader.size

/-- Read the next character and move on past it. Bytes that cannot be decoded are reported at the
place of the character that they should have been. -/
def readGlyph : ScanM File Glyph := fun s =>
  let f := s.state
  match f.reader.read with
  | .ok (some c) r => .ok (.plain c f.name f.place)
      { s with state := { f with reader := r, place := f.place.next c } }
  | .ok none r => .ok (.eof f.name []) { s with state := { f with reader := r } }
  | .error e r => .error (e.locate f.place) { s with state := { f with reader := r } }

/-- The glyph that was given back last, or else the next character. -/
def take : ScanM File Glyph := fun s =>
  match s.state.returned with
  | g :: gs => .ok g { s with state := { s.state with returned := gs } }
  | [] => readGlyph s

/-- Give back a character. -/
def giveBack (g : Glyph) : ScanM File Unit :=
  if g.isEof then throw (.violation .endPushedBack)
  else ScanM.change fun f => { f with returned := g :: f.returned }

/-- The place of the next glyph. -/
def location (f : File) : Location := (f.returned.head?.bind Glyph.start?).getD f.place

theorem readGlyph_within : Within (Logged.size size) 0 readGlyph Glyph.weight := by
  intro s g s' h
  unfold readGlyph at h
  dsimp only at h
  split at h
  · next c r hr =>
    cases h
    have : r.size + 1 ≤ s.state.reader.size := LineReader.read_within _ _ _ hr
    simp only [Logged.size, size, Glyph.weight, Glyph.isEof, Bool.false_eq_true, if_false]
    omega
  · next r hr =>
    cases h
    have : r.size ≤ s.state.reader.size := LineReader.read_within _ _ _ hr
    simp only [Logged.size, size, Glyph.weight, Glyph.isEof, if_true]
    omega
  · cases h

theorem take_within : Within (Logged.size size) 0 take Glyph.weight := by
  intro s g s' h
  unfold take at h
  split at h
  · next hr =>
    cases h
    simp only [Logged.size, size, hr, Glyph.weight, List.length_cons]
    split <;> omega
  · exact readGlyph_within _ _ _ h

theorem giveBack_within (g : Glyph) : Within (Logged.size size) 1 (giveBack g) fun _ => 0 := by
  unfold giveBack
  split
  · exact .throw _
  · exact ScanM.change_within fun f => by simp only [size, List.length_cons]; omega

instance : Source File where
  take := take
  giveBack := giveBack
  location := location
  file? := name
  remaining := size
  take_within := take_within
  giveBack_within := giveBack_within

end File

end Pretoken
