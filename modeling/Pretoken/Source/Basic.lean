import Pretoken.Glyph
import Pretoken.Scan

/-!
# Sources of glyphs

A source hands out the glyphs of a text one after the other and takes them back again. Replacing
trigraphs and splicing lines are sources on top of sources.

* `Source`: the class of sources. Its laws bound what taking and giving back do to the number of
  glyphs that remain, so that whatever reads from a source comes to an end.
* `Source.restore`: give back a glyph that was only looked at.
* `Source.drain`: everything up to the end.
-/

namespace Pretoken

/-- A character counts one, an end nothing. -/
def Glyph.weight (g : Glyph) : Nat := if g.isEof then 0 else 1

theorem Glyph.weight_le_one (g : Glyph) : g.weight ≤ 1 := by
  unfold weight
  split <;> omega

theorem Glyph.weight_of_value? {g : Glyph} {c : Char} (h : g.value? = some c) : g.weight = 1 := by
  simp [weight, isEof_eq_false_of_value? h]

theorem Glyph.weight_of_is {g : Glyph} {c : Char} (h : g.is c = true) : g.weight = 1 :=
  weight_of_value? (is_iff.1 h)

theorem Glyph.weight_of_any {g : Glyph} {p : Char → Bool} (h : g.value?.any p = true) :
    g.weight = 1 := by
  cases hv : g.value? with
  | none => simp [hv] at h
  | some c => exact weight_of_value? hv

/-- A stream of glyphs that can be given back. -/
class Source (σ : Type) where
  /-- The next glyph. At the end of the text, and after it, this is an end. -/
  take : ScanM σ Glyph
  /-- Give a glyph back, to be taken again next. An end is never given back. -/
  giveBack : Glyph → ScanM σ Unit
  /-- The location of the next glyph. -/
  location : σ → Location
  /-- The file that the glyphs come from. -/
  file? : σ → Option String
  /-- A bound on the number of characters that can still be taken. -/
  remaining : σ → Nat
  /-- A character that is taken does not remain. -/
  take_within : Within (Logged.size remaining) 0 take Glyph.weight
  /-- A glyph that is given back adds one at most. -/
  giveBack_within : ∀ g, Within (Logged.size remaining) 1 (giveBack g) fun _ => 0

namespace Source

variable {σ : Type} [Source σ]

/-- How much remains, whatever the log. -/
abbrev measure : Logged σ → Nat := Logged.size remaining

/-- Give back a glyph that was looked at; an end needs no giving back. -/
def restore (g : Glyph) : ScanM σ Unit := if g.isEof then pure () else giveBack g

theorem restore_within (g : Glyph) : Within measure g.weight (restore g : ScanM σ Unit) fun _ => 0 := by
  unfold restore Glyph.weight
  split
  · exact .pure _ (Nat.le_refl _)
  · exact giveBack_within g

/-! ## Draining -/

/-- Take a glyph: after a character there may be more, after an end there is not. -/
def draw : ScanM σ (Turn Glyph Glyph) :=
  (fun g => if g.isEof then .done g else .again g) <$> take

theorem draw_within : Within measure 0 (draw : ScanM σ (Turn Glyph Glyph)) Turn.toll :=
  .map <| (take_within (σ := σ)).weaken 0 (Nat.le_refl _) fun g => by
    unfold Glyph.weight
    split <;> simp [Turn.toll]

/-- Take everything: the characters, and the end or the fault that came after them. -/
def drain : ScanM σ (List Glyph × Except Fault Glyph) := gatherUntil measure draw draw_within.draws

end Source

end Pretoken
