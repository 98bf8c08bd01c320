import Pretoken.Proofs.Coupling
import Pretoken.Proofs.Phases
import Pretoken.Proofs.Replaying

/-!
# A replay beside the phases

The phases and a replay of the glyphs that they show are in step until an identifier ends right before
a backslash and a line feed. There the identifier has looked at both and given them back, and the
phases take them for a splice.

* `Phases.shadow`: the coupling of the phases with a replay.
* `Phases.Respliced`: the phases after they took a backslash and a line feed for a splice.
* **`Phases.readToken_shadow`**: the phases and the replay give the same token.
-/

namespace Pretoken

open ScanM (Gives Beside)

/-! ## Glyphs that are the same -/

namespace Glyph

theorem value?_of_same {g h : Glyph} (hs : g = h ∧ g.Placed) : g.value? = h.value? := by
  rw [hs.1]

theorem placed_of_same {g h : Glyph} (hs : g = h ∧ g.Placed) : g.Placed ∧ h.Placed :=
  ⟨hs.2, hs.1 ▸ hs.2⟩

theorem merged_of_same {d : Digraph} {gs hs : List Glyph} (hne : gs ≠ [])
    (h : List.Forall₂ (fun g h => g = h ∧ g.Placed) gs hs) :
    merged d.primary gs = .merged d.primary hs ∧ (merged d.primary gs).Placed := by
  have hall : gs = hs ∧ ∀ g ∈ gs, g.Placed := by
    clear hne
    induction h with
    | nil => exact ⟨rfl, by simp⟩
    | cons hg _ ih => exact ⟨by rw [hg.1, ih.1], List.forall_mem_cons.2 ⟨hg.2, ih.2⟩⟩
  exact ⟨by rw [hall.1], placed_merged d.primary hne hall.2⟩

end Glyph

namespace Phases

open Glyph (startsSplice leavesAll)

/-- The phases have taken the first two of the glyphs `w` for a splice. They lie now behind the glyph
that comes next, or behind the end. -/
def Respliced (s : Phases) (w : List Glyph) (e : Glyph) : Prop :=
  startsSplice w = true ∧ ∃ w' e', s.Shows w' e' ∧
    leavesAll w' ++ e'.leaves = leavesAll w ++ e.leaves ∧
    ∀ b ∈ w.head?, ∀ g ∈ w'.head?, b.leaves.length < g.leaves.length

/-- The phases after an identifier, where the glyphs `w` were to come. -/
def Loose (s : Phases) (w : List Glyph) (e : Glyph) : Prop :=
  (startsSplice w = false ∧ s.Shows w e) ∨ s.Respliced w e

theorem giveBack_backslash {b e : Glyph} {w : List Glyph} (hp : b.Placed) (hb : b.is '\\') :
    Gives (·.Primed w e) (Source.giveBack b : ScanM Phases Unit) fun _ s => s.Loose (b :: w) e := by
  cases hs : startsSplice (b :: w) with
  | false =>
    have hback : Gives (·.Primed w e) (Source.giveBack b : ScanM Phases Unit) fun _ s =>
        s.Primed (b :: w) e := giveBack_past.pre fun s h => h.past hp hb hs
    exact hback.post fun _ s h => .inl ⟨hs, h.shows⟩
  | true =>
    match w, hs with
    | n :: w, hs =>
      rw [startsSplice, Bool.and_eq_true] at hs
      refine (giveBack_resplice hp hb hs.2).post ?_
      rintro _ s ⟨w', e', hsh, hl, hh⟩
      refine .inr ⟨by simp [startsSplice, hs], w', e', hsh, hl, ?_⟩
      rintro _ ⟨⟩ g hg
      exact hh g hg

/-- **The phases beside a replay of what they show**, the end being `e`. -/
def shadow (e : Glyph) : Coupling Phases Replay where
  Like g h := g = h ∧ g.Placed
  InStep s r := s.Shows r.coming e
  Past g _ s r := s.Past g r.coming e
  Primed s r := s.Primed r.coming e
  Loose s r := s.Loose r.coming e
  value_eq := @Glyph.value?_of_same
  placed := @Glyph.placed_of_same
  like_merged := @Glyph.merged_of_same
  inStep_of_primed h := h.shows
  inStep_of_past h := h.shows
  past_of_inert hl hv hc hs := hs.past hl.2 hv hc
  take := by
    rintro s ⟨⟨coming, name, finish⟩, log⟩ hs
    cases coming with
    | nil =>
      obtain ⟨g, s', ht, rfl, hp⟩ := take_nil s hs
      rw [ht]
      exact .inl ⟨hs.isEof, rfl, hp, .inl ⟨rfl, hp.shows⟩⟩
    | cons g w =>
      obtain ⟨g, s', ht, rfl, hp⟩ := take_cons s hs
      rw [ht]
      exact .inr ⟨⟨rfl, hp.1⟩, hp⟩
  giveBack_past := by
    rintro g _ ⟨rfl, hg⟩ s r hs
    obtain ⟨u, s', hb, hp⟩ := giveBack_past s hs
    rw [hb, Replay.giveBack_eq hg.isEof]
    exact ⟨hp, fun hb => .inl ⟨Glyph.startsSplice_of_ne hb _, hp.shows⟩⟩
  giveBack_backslash := by
    rintro g _ ⟨rfl, hg⟩ hb s r hs
    obtain ⟨u, s', hb, hp⟩ := giveBack_backslash hg hb s hs
    rw [hb, Replay.giveBack_eq hg.isEof]
    exact hp

variable {w : List Glyph} {e : Glyph}

/-- A scanner over the phases at the start of a token, where the glyphs `w` and the end `e` are to
come. -/
def Ready (w : List Glyph) (e : Glyph) (s : Scanner Phases) : Prop :=
  s.draft = .empty ∧ s.source.Shows w e

/-- What came of reading a token beside the replay, where the glyphs `w` were to come. -/
def Shadowed (w : List Glyph) (e : Glyph) (o : Option Token) (s : Scanner Phases)
    (r : Scanner Replay) : Prop :=
  s.draft = .empty ∧ Replay.Reads w o r ∧ match o with
  | none => s.source.Shows [] e
  | some t => if t.kind = .identifier then s.source.Loose r.source.coming e
      else s.source.Shows r.source.coming e

/-- **The phases and the replay give the same token.** -/
theorem readToken_shadow [Alphabet] {table : Table} (hf : table.fits = true) {s : Logged (Scanner Phases)}
    {r : Logged (Scanner Replay)} (hs : Ready w e s.state) (hr : Replay.Ready w r.state) :
    ∃ o s' r', Scanner.readToken table s = .ok o s' ∧ Scanner.readToken table r = .ok o r' ∧
      Shadowed w e o s'.state r'.state := by
  have hin : (shadow e).InStep s.state.source r.state.source := by
    have h := hs.2
    rwa [← hr.2] at h
  obtain ⟨o, s', o', r', hs', hr', hq, hrd⟩ := (Coupling.readToken_beside (C := shadow e) hf).total
    (Replay.readToken_gives hf (w := w) hs.2.placed) (s := s) (t := r)
    ⟨by rw [hs.1]; rfl, by rw [hr.1]; rfl, hin⟩ hr
  match o, o', hq with
  | none, none, hq =>
    have hp : s'.state.source.Primed r'.state.source.coming e := hq.2.2
    refine ⟨none, s', r', hs', hr', congrArg Draft.mk hq.1, hrd, ?_⟩
    have h := hp.shows
    rwa [hrd.2.2] at h
  | some t, some u, hq =>
    obtain rfl := hq.1.eq And.left
    refine ⟨some t, s', r', hs', hr', ?_, hrd, ?_⟩
    · have h := hq.2
      split at h <;> exact congrArg Draft.mk h.1
    · have h := hq.2
      split at h
      · next hk =>
        simp only [hk, if_true]
        exact h.2.2
      · next hk =>
        simp only [hk, if_false]
        exact h.2.2

end Phases

end Pretoken
