import Pretoken.Source.Basic
import Pretoken.Token.Draft

/-!
# Scanners

A scanner takes glyphs from a source and collects those of a token in a draft. What it takes and
does not keep, it gives back.

* `Scanner.next`, `Scanner.putBack`, `Scanner.keep`, `Scanner.undo`: the moves of a scanner.
* `Scanner.accept`, `Scanner.acceptUpTo`, `Scanner.acceptWhile`: keep what belongs to a class.
* `Scanner.size`: the measure of all loops. A glyph in the source counts two and a glyph in the draft
  one, so that keeping a glyph is progress and giving it back from the draft costs one credit.
-/

namespace Pretoken

/-- A source, and the glyphs of the token that is being read from it. -/
structure Scanner (σ : Type) where
  /-- Where the glyphs come from. -/
  source : σ
  /-- The glyphs of the token so far. -/
  draft : Draft

namespace Scanner

/-- A scanner with an empty draft. -/
def ofSource {σ : Type} (source : σ) : Scanner σ := ⟨source, .empty⟩

variable {σ : Type} [Source σ]

/-! ## Moves -/

/-- Scan the source. -/
def onSource {α : Type} (m : ScanM σ α) : ScanM (Scanner σ) α :=
  ScanM.onState source (fun t s => { s with source := t }) m

/-- Take the next glyph of the source. -/
def next : ScanM (Scanner σ) Glyph := onSource Source.take

/-- Give back a glyph that was looked at. -/
def putBack (g : Glyph) : ScanM (Scanner σ) Unit := onSource (Source.restore g)

/-- Add a glyph to the draft. -/
def keep (g : Glyph) : ScanM (Scanner σ) Unit :=
  ScanM.change fun s => { s with draft := s.draft.append g }

/-- Give the last glyph of the draft back to the source. -/
def undo : ScanM (Scanner σ) Unit := fun s =>
  match s.state.draft.newestFirst with
  | [] => .ok () s
  | g :: gs => onSource (Source.giveBack g) { s with state := { s.state with draft := ⟨gs⟩ } }

/-- Give the last glyphs of the draft back to the source, one after the other. -/
def undoMany : Nat → ScanM (Scanner σ) Unit
  | 0 => pure ()
  | n + 1 => do
    undo
    undoMany n

/-- Change the draft, unless that breaks a contract. -/
def revise (f : Draft → Except Violation Draft) : ScanM (Scanner σ) Unit := fun s =>
  match f s.state.draft with
  | .ok d => .ok () { s with state := { s.state with draft := d } }
  | .error v => .error (.violation v) s

/-- Keep the next glyph if its character is in the class `p`; tell whether it was. -/
def accept (p : Char → Bool) : ScanM (Scanner σ) Bool := do
  let g ← next
  if g.value?.any p then
    keep g
    return true
  else
    putBack g
    return false

/-- Keep the next glyphs of the class `p`, up to so many; tell how many there were. -/
def acceptUpTo (p : Char → Bool) : Nat → ScanM (Scanner σ) Nat
  | 0 => pure 0
  | n + 1 => do
    if ← accept p then
      let m ← acceptUpTo p n
      return m + 1
    else return 0

/-! ## Progress -/

/-- A glyph in the source counts two, a glyph in the draft one. -/
def size (s : Scanner σ) : Nat := 2 * Source.remaining s.source + s.draft.size

/-- The measure of a scanner, whatever the log. -/
abbrev measure : Logged (Scanner σ) → Nat := Logged.size size

theorem onSource_within {α : Type} {i j : Nat} {k l : α → Nat} {m : ScanM σ α}
    (h : Within Source.measure i m k) (hj : 2 * i ≤ j) (hl : ∀ a, l a ≤ 2 * k a) :
    Within measure j (onSource m) l :=
  ScanM.onState_within 2 (fun s t => by simp only [size]; omega) h hj hl

theorem next_within : Within measure 0 (next : ScanM (Scanner σ) Glyph) fun g => 2 * g.weight :=
  onSource_within Source.take_within (Nat.le_refl _) fun _ => Nat.le_refl _

theorem putBack_within (g : Glyph) :
    Within measure (2 * g.weight) (putBack g : ScanM (Scanner σ) Unit) fun _ => 0 :=
  onSource_within (Source.restore_within g) (Nat.le_refl _) fun _ => Nat.le_refl _

theorem keep_within (g : Glyph) (j : Nat) :
    Within measure (1 + j) (keep g : ScanM (Scanner σ) Unit) fun _ => j :=
  ScanM.change_within fun s => by simp only [size, Draft.size_append]; omega

theorem undo_within : Within measure 1 (undo : ScanM (Scanner σ) Unit) fun _ => 0 := by
  intro s u s' h
  unfold undo at h
  split at h
  · cases h; exact Nat.le_add_right _ _
  · next g gs hd =>
    have hg : Within measure 2 (onSource (Source.giveBack g) : ScanM (Scanner σ) Unit) fun _ => 0 :=
      onSource_within (Source.giveBack_within g) (Nat.le_refl _) fun _ => Nat.zero_le _
    have := hg _ _ _ h
    simp only [Logged.size, size, Draft.size, hd, List.length_cons] at *
    omega

theorem undoMany_within (n : Nat) :
    Within measure n (undoMany n : ScanM (Scanner σ) Unit) fun _ => 0 := by
  induction n with
  | zero => exact .pure _ (Nat.le_refl _)
  | succ n ih =>
    exact (undo_within.weaken (l := fun _ => n) n (by omega) fun _ => by omega).bind fun _ => ih

theorem revise_within {f : Draft → Except Violation Draft} (j : Nat)
    (h : ∀ d d', f d = .ok d' → d'.size ≤ d.size) :
    Within measure j (revise f : ScanM (Scanner σ) Unit) fun _ => j := by
  intro s u s' hs
  unfold revise at hs
  split at hs
  · next hd =>
    cases hs
    have := h _ _ hd
    simp only [Logged.size, size]
    omega
  · cases hs

theorem accept_within (p : Char → Bool) :
    Within measure 0 (accept p : ScanM (Scanner σ) Bool) Bool.toNat :=
  next_within.bind fun g => by
    split
    · next h =>
      rw [Glyph.weight_of_any h]
      exact (keep_within g 1).bind fun _ => .pure _ (Nat.le_refl _)
    · exact (putBack_within g).bind fun _ => .pure _ (Nat.le_refl _)

theorem acceptUpTo_within (p : Char → Bool) (n : Nat) :
    Within measure 0 (acceptUpTo p n : ScanM (Scanner σ) Nat) id := by
  induction n with
  | zero => exact .pure _ (Nat.le_refl _)
  | succ n ih =>
    refine (accept_within p).bind fun b => ?_
    split
    · next h =>
      subst h
      exact (ih.frame 1).bind fun m => .pure _ (Nat.le_refl _)
    · exact .pure _ (Nat.zero_le _)

/-! ## Runs of a class -/

/-- Keep the next glyph if it is in the class `p`, and then try another. -/
def acceptTurn (p : Char → Bool) (_ : Unit) : ScanM (Scanner σ) (Turn Unit Unit) :=
  (fun b => if b then .again () else .done ()) <$> accept p

theorem acceptTurn_within (p : Char → Bool) (u : Unit) :
    Within measure 0 (acceptTurn p u : ScanM (Scanner σ) (Turn Unit Unit)) Turn.toll :=
  .map ((accept_within p).weaken 0 (Nat.le_refl _) fun b => by cases b <;> simp [Turn.toll])

/-- Keep the next glyphs of the class `p`, as many as there are. -/
def acceptWhile (p : Char → Bool) : ScanM (Scanner σ) Unit :=
  loop measure (acceptTurn p) (fun u => (acceptTurn_within p u).draws) ()

theorem acceptWhile_within (p : Char → Bool) :
    Within measure 0 (acceptWhile p : ScanM (Scanner σ) Unit) fun _ => 0 :=
  .loop (fun u => (acceptTurn_within p u).weaken 0 (Nat.le_refl _) fun t => by
    cases t <;> simp [Turn.credit]) ()

end Scanner

end Pretoken
