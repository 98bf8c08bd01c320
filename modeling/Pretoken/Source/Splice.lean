import Pretoken.Source.Basic

/-!
# Line splices

A backslash right before a line feed joins two lines: both characters are deleted. The stage deletes
every such pair and makes it a part of the glyph that follows. If nothing follows, the end keeps the
pairs, and stays the same end from then on.
-/

namespace Pretoken

/-- A source whose lines are spliced. -/
structure Splice (σ : Type) where
  /-- The source below. -/
  below : σ
  /-- The end, once it has been reached. -/
  ending : Option { g : Glyph // g.isEof = true }

namespace Splice

/-- A stage that has not reached the end. -/
def ofSource {σ : Type} (below : σ) : Splice σ := ⟨below, none⟩

section Stage

variable {σ : Type} [Source σ]

open Source (measure restore)

/-- Delete a backslash and a line feed if they are next, else take the next glyph. What has been
deleted is kept last first. -/
def spliceTurn (removed : List Glyph) : ScanM σ (Turn (List Glyph) (List Glyph × Glyph)) := do
  let g ← Source.take
  if g.is '\\' then
    let after ← Source.take
    if after.is '\n' then
      ScanM.emit (.splice (← ScanM.view Source.location))
      return .again (after :: g :: removed)
    else
      restore after
      return .done (removed.reverse, g)
  else return .done (removed.reverse, g)

theorem spliceTurn_within (removed : List Glyph) (k : Turn (List Glyph) (List Glyph × Glyph) → Nat)
    (hk : ∀ gs, k (.again gs) ≤ 2) (hd : ∀ gs g, k (.done (gs, g)) ≤ g.weight) :
    Within measure 0 (spliceTurn removed : ScanM σ _) k :=
  Source.take_within.bind fun g => by
    split
    · next h₁ =>
      have hw := hd removed.reverse g
      rw [Glyph.weight_of_is h₁] at hw ⊢
      refine (Source.take_within.frame 1).bind fun after => ?_
      split
      · next h₂ =>
        rw [Glyph.weight_of_is h₂]
        exact (ScanM.view_within (k := fun _ => 2) _ fun _ => Nat.le_refl _).bind fun _ =>
          (ScanM.emit_within _).bind fun _ => .pure _ (hk _)
      · exact ((Source.restore_within after).frame 1).bind fun _ => .pure _ (by omega)
    · exact .pure _ (hd _ _)

theorem spliceTurn_draws (removed : List Glyph) :
    Draws measure (spliceTurn removed : ScanM σ (Turn (List Glyph) (List Glyph × Glyph))) :=
  (spliceTurn_within removed Turn.toll (fun _ => by simp [Turn.toll]) fun _ _ =>
    Nat.zero_le _).draws

/-- All pairs that are to be deleted here, and the first glyph after them. -/
def spliceAll : ScanM σ (List Glyph × Glyph) := loop measure spliceTurn spliceTurn_draws []

/-- Scan the source below. -/
def onBelow {α : Type} (m : ScanM σ α) : ScanM (Splice σ) α :=
  ScanM.onState below (fun t s => { s with below := t }) m

/-- Remember an end. -/
def remember (g : Glyph) : ScanM (Splice σ) Unit :=
  if h : g.isEof = true then ScanM.change fun s => { s with ending := some ⟨g, h⟩ } else pure ()

/-- The glyph `g` with the pairs `removed` before it. -/
def decorate (removed : List Glyph) (g : Glyph) : ScanM (Splice σ) Glyph :=
  if removed.isEmpty then pure g else ScanM.require (Glyph.splice removed g)

/-- The next glyph. An end that was reached before is the end. -/
def take : ScanM (Splice σ) Glyph := do
  let (removed, g) ← onBelow spliceAll
  match g.isEof, ← ScanM.view ending with
  | true, some e => return e.1
  | _, _ =>
    let g ← decorate removed g
    remember g
    return g

/-- Give a glyph back to the source below. -/
def giveBack (g : Glyph) : ScanM (Splice σ) Unit := onBelow (Source.giveBack g)

/-- What remains is what remains below. -/
def size (s : Splice σ) : Nat := Source.remaining s.below

/-! ## Progress -/

theorem onBelow_within {α : Type} {j : Nat} {k : α → Nat} {m : ScanM σ α} (h : Within measure j m k) :
    Within (Logged.size size) j (onBelow m) k :=
  ScanM.onState_within 1 (fun s t => by simp only [size]; omega) h (Nat.le_of_eq (Nat.one_mul _))
    fun _ => Nat.le_of_eq (Nat.one_mul _).symm

theorem spliceAll_within : Within measure 0 (spliceAll : ScanM σ _) fun r => r.2.weight :=
  Within.loop (fun removed => spliceTurn_within removed _ (fun _ => Nat.zero_le _) fun _ _ =>
    Nat.le_refl _) []

theorem remember_within (g : Glyph) (j : Nat) :
    Within (Logged.size size) j (remember g : ScanM (Splice σ) Unit) fun _ => j := by
  unfold remember
  split
  · rintro s u s' ⟨⟩
    exact Nat.le_refl _
  · exact .pure _ (Nat.le_refl _)

theorem weight_splice {removed : List Glyph} {g h : Glyph} (hs : Glyph.splice removed g = .ok h) :
    h.weight = g.weight := by
  unfold Glyph.splice Glyph.merge Glyph.endAfter at hs
  split at hs
  · next hv =>
    cases hc : Glyph.checkParts (removed ++ [g]) <;> rw [hc] at hs <;> cases hs
    rw [Glyph.weight_of_value? hv]; rfl
  · next hv =>
    cases hc : Glyph.checkParts removed <;> rw [hc] at hs <;> cases hs
    rw [Glyph.weight, Glyph.weight, Glyph.value?_eq_none_iff.1 hv]; rfl

theorem decorate_within (removed : List Glyph) (g : Glyph) :
    Within (Logged.size size) g.weight (decorate removed g : ScanM (Splice σ) Glyph) Glyph.weight := by
  unfold decorate
  split
  · exact .pure _ (Nat.le_refl _)
  · exact ScanM.require_within _ fun h hs => Nat.le_of_eq (weight_splice hs)

theorem take_within : Within (Logged.size size) 0 (take : ScanM (Splice σ) Glyph) Glyph.weight :=
  (onBelow_within spliceAll_within).bind fun (removed, g) =>
    (ScanM.view_within (k := fun _ => g.weight) _ fun _ => Nat.le_refl _).bind fun ending => by
      split
      · next e _ => exact .pure _ (by simp [Glyph.weight, e.2])
      · exact (decorate_within removed g).bind fun h => (remember_within h _).bind fun _ =>
          .pure _ (Nat.le_refl _)

theorem giveBack_within (g : Glyph) :
    Within (Logged.size size) 1 (giveBack g : ScanM (Splice σ) Unit) fun _ => 0 :=
  onBelow_within (Source.giveBack_within g)

instance : Source (Splice σ) where
  take := take
  giveBack := giveBack
  location s := Source.location s.below
  file? s := Source.file? s.below
  remaining := size
  take_within := take_within
  giveBack_within := giveBack_within

end Stage

end Splice

end Pretoken
