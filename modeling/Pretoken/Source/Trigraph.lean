import Pretoken.Source.Basic

/-!
# Trigraphs

Two question marks and one of nine characters stand for a character that not every keyboard has. The
stage replaces each such trigraph by one glyph, with the three that it stands for as parts.

* `Trigraph.replacement?`: what a trigraph stands for, by its third character.
* `Trigraph`: the stage on top of a source. A stage that is not enabled passes everything on.
-/

namespace Pretoken

/-- A source whose trigraphs are replaced, if that is enabled. -/
structure Trigraph (σ : Type) where
  /-- The source below. -/
  below : σ
  /-- Whether trigraphs are replaced. -/
  enabled : Bool

namespace Trigraph

/-- The character that the trigraph ending in `c` stands for. -/
def replacement? (c : Char) : Option Char :=
  match c with
  | '=' => some '#'
  | '(' => some '['
  | ')' => some ']'
  | '<' => some '\x7b'
  | '>' => some '\x7d'
  | '!' => some '|'
  | '-' => some '~'
  | '\'' => some '^'
  | '/' => some '\\'
  | _ => none

section Stage

variable {σ : Type} [Source σ]

open Source (measure restore)

/-- The trigraph that starts with two question marks, or else the first of them. -/
def afterMarks (first second : Glyph) : ScanM σ Glyph := do
  let third ← Source.take
  match third.value?.bind replacement? with
  | some c =>
    let g ← ScanM.require (Glyph.merge c [first, second, third])
    ScanM.emit (.trigraph g.raw c)
    return g
  | none =>
    restore third
    Source.giveBack second
    return first

/-- The next glyph of the source below, a trigraph being replaced. -/
def replaceNext : ScanM σ Glyph := do
  let first ← Source.take
  if first.is '?' then
    let second ← Source.take
    if second.is '?' then
      afterMarks first second
    else
      restore second
      return first
  else return first

/-- Scan the source below. -/
def onBelow {α : Type} (m : ScanM σ α) : ScanM (Trigraph σ) α :=
  ScanM.onState below (fun t s => { s with below := t }) m

/-- The next glyph. -/
def take : ScanM (Trigraph σ) Glyph := fun s =>
  if s.state.enabled then onBelow replaceNext s else onBelow Source.take s

/-- Give a glyph back to the source below. -/
def giveBack (g : Glyph) : ScanM (Trigraph σ) Unit := onBelow (Source.giveBack g)

/-- What remains is what remains below. -/
def size (s : Trigraph σ) : Nat := Source.remaining s.below

/-! ## Progress -/

theorem afterMarks_within (first second : Glyph) :
    Within measure 2 (afterMarks first second : ScanM σ Glyph) Glyph.weight :=
  (Source.take_within.frame 2).bind fun third => by
    split
    · exact (ScanM.require_within (k := fun _ => 1) _ fun _ _ => by omega).bind fun g =>
        (ScanM.emit_within _).bind fun _ => .pure _ g.weight_le_one
    · exact ((Source.restore_within third).weaken 2 (Nat.le_refl _) fun _ => Nat.le_refl _).bind
        fun _ => ((Source.giveBack_within second).frame 1).bind fun _ => .pure _ first.weight_le_one

theorem replaceNext_within : Within measure 0 (replaceNext : ScanM σ Glyph) Glyph.weight :=
  Source.take_within.bind fun first => by
    split
    · next h₁ =>
      rw [Glyph.weight_of_is h₁]
      refine (Source.take_within.frame 1).bind fun second => ?_
      split
      · next h₂ => rw [Glyph.weight_of_is h₂]; exact afterMarks_within first second
      · exact ((Source.restore_within second).frame 1).bind fun _ => .pure _ (by
          have := first.weight_le_one; omega)
    · exact .pure _ (Nat.le_refl _)

theorem onBelow_within {α : Type} {j : Nat} {k : α → Nat} {m : ScanM σ α} (h : Within measure j m k) :
    Within (Logged.size size) j (onBelow m) k :=
  ScanM.onState_within 1 (fun s t => by simp only [size]; omega) h (Nat.le_of_eq (Nat.one_mul _))
    fun _ => Nat.le_of_eq (Nat.one_mul _).symm

theorem take_within : Within (Logged.size size) 0 (take : ScanM (Trigraph σ) Glyph) Glyph.weight := by
  intro s g s' h
  unfold take at h
  split at h
  · exact onBelow_within replaceNext_within _ _ _ h
  · exact onBelow_within Source.take_within _ _ _ h

theorem giveBack_within (g : Glyph) :
    Within (Logged.size size) 1 (giveBack g : ScanM (Trigraph σ) Unit) fun _ => 0 :=
  onBelow_within (Source.giveBack_within g)

instance : Source (Trigraph σ) where
  take := take
  giveBack := giveBack
  location s := Source.location s.below
  file? s := Source.file? s.below
  remaining := size
  take_within := take_within
  giveBack_within := giveBack_within

end Stage

end Trigraph

end Pretoken
