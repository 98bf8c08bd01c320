import Pretoken.Proofs.Custody

/-!
# No glyph gets lost

Whatever the table, a token that is read from a replay covers a prefix of the glyphs that were to come, and the rest is
still to come. A table may name routines where they do not belong: they can break a contract, but they cannot make
a scanner lose a glyph, repeat one, or change the order.

* `Replay.custody`: anything can be given back to a replay.
* **`Replay.readToken_conserves`**: what was to come is behind the token, or still to come.
-/

namespace Pretoken

open Glyph (leavesAll)

namespace Replay

/-- The glyphs to come were `w`; since then `gs` have been taken, the last one first. -/
def Conserved (w : List Glyph) (name : Option String) (gs : List Glyph) (s : Logged Replay) : Prop :=
  ∃ rest, s.state = { ofGlyphs w name with coming := rest } ∧ gs.reverse ++ rest = w

variable {w : List Glyph}

theorem take_conserved (hw : ∀ g ∈ w, g.isEof = false) (name : Option String) (gs : List Glyph) :
    Ensures (Conserved w name gs) (Source.take : ScanM Replay Glyph) fun g s =>
      (g.isEof = true ∧ s.state = { ofGlyphs w name with coming := [] } ∧ gs.reverse = w) ∨
      (g.isEof = false ∧ Conserved w name (g :: gs) s) := by
  rintro ⟨_, log⟩ ⟨rest, rfl, hrest⟩ g s' h
  change Replay.take _ = _ at h
  cases rest with
  | nil =>
    cases h
    exact .inl ⟨rfl, rfl, by simpa using hrest⟩
  | cons x rest =>
    cases h
    exact .inr ⟨hw g (by simp [← hrest]), rest, rfl, by simpa using hrest⟩

theorem giveBack_conserved (name : Option String) (g : Glyph) (gs : List Glyph) :
    Ensures (Conserved w name (g :: gs)) (Source.giveBack g : ScanM Replay Unit) fun _ => Conserved w name gs := by
  change Ensures _ (Replay.giveBack g) _
  unfold Replay.giveBack
  split
  · exact .throw _
  · rintro ⟨_, log⟩ ⟨rest, rfl, hrest⟩ _ _ ⟨⟩
    exact ⟨g :: rest, rfl, by simpa using hrest⟩

/-- **Anything can be given back to a replay**, and the glyphs are the same again. -/
def custody (hw : ∀ g ∈ w, g.isEof = false) (name : Option String) : Custody Replay where
  Holds := Conserved w name
  Ended gs s := s.state = { ofGlyphs w name with coming := [] } ∧ gs.reverse = w
  Fresh g gs := Conserved w name (g :: gs)
  Free _ := True
  holds_of_ended := fun ⟨hs, hgs⟩ => ⟨[], hs, by simpa using hgs⟩
  holds_of_fresh := id
  fresh_of_free _ := id
  free_of_inert _ := trivial
  free_of_backslash _ := trivial
  take := take_conserved hw name
  giveBack := giveBack_conserved name
  incompleteName := id

/-- **Tokens conserve the glyphs.** Whatever the table, and whatever glyphs `w` other than ends are to come: if a token
is read, those in front are behind it, which are some, and the others are still to come; and nothing is left in the
draft. Only at the end there is no token, and then nothing changes. -/
theorem readToken_conserves [Alphabet] (table : Table) (hw : ∀ g ∈ w, g.isEof = false) (name : Option String) :
    (∀ t s log, (Scanner.readToken table).run (.ofSource (ofGlyphs w name)) = (.ok (some t), s, log) →
      ∃ p rest, p ≠ [] ∧ p ++ rest = w ∧ leavesAll t.glyphs = leavesAll p ∧
        s = ⟨{ ofGlyphs w name with coming := rest }, .empty⟩) ∧
    (∀ s log, (Scanner.readToken table).run (.ofSource (ofGlyphs w name)) = (.ok none, s, log) →
      w = [] ∧ s = .ofSource (ofGlyphs w name)) := by
  have hstart : Custody.At ((custody hw name).Holds []) [] ⟨.ofSource (ofGlyphs w name), []⟩ := ⟨rfl, w, rfl, rfl⟩
  have hread {o : Option Token} {s : Scanner Replay} {log : List Event}
      (h : (Scanner.readToken table).run (.ofSource (ofGlyphs w name)) = (.ok o, s, log)) :
      ∃ l, (custody hw name).Read o ⟨s, l⟩ := by
    unfold ScanM.run at h
    split at h
    · next ht =>
      cases h
      exact ⟨_, (custody hw name).readToken (.inl fun _ => trivial) _ hstart _ _ ht⟩
    · cases h
  constructor
  · intro t s log h
    obtain ⟨l, -, gs, hne, hcovers, hdraft, rest, hs, hw'⟩ := hread h
    refine ⟨gs.reverse, rest, by simpa using hne, hw', hcovers.leavesAll_eq, ?_⟩
    obtain ⟨source, ⟨d⟩⟩ := s
    cases hs
    cases hdraft
    rfl
  · intro s log h
    obtain ⟨l, hdraft, hs, hw'⟩ := hread h
    obtain rfl : w = [] := hw'.symm
    refine ⟨rfl, ?_⟩
    obtain ⟨source, ⟨d⟩⟩ := s
    cases hs
    cases hdraft
    rfl

/-- A table that takes two letters for a number sign. What was looked at after them is given back. -/
theorem readToken_conserves_letters :
    (∀ g ∈ Glyph.inscribe none .origin ['a', 'b', '%', 'x'], g.isEof = false) ∧
    ((Scanner.readToken (.compile [[⟨.one 'a', .nested [⟨.one 'b', .finish (.routine (.sharpDigraph .number))⟩]
        (.fixed .unknown)⟩]])).run (.ofSource (ofGlyphs (Glyph.inscribe none .origin ['a', 'b', '%', 'x']) none)) =
      (.ok (some ⟨[.merged '#' ((Glyph.inscribe none .origin ['a', 'b', '%', 'x']).take 2)], .number, []⟩),
        ⟨{ ofGlyphs (Glyph.inscribe none .origin ['a', 'b', '%', 'x']) none with
          coming := (Glyph.inscribe none .origin ['a', 'b', '%', 'x']).drop 2 }, .empty⟩, []) ∧
    ∃ p rest, p ≠ [] ∧ p ++ rest = Glyph.inscribe none .origin ['a', 'b', '%', 'x'] ∧
      leavesAll [.merged '#' ((Glyph.inscribe none .origin ['a', 'b', '%', 'x']).take 2)] = leavesAll p ∧
      rest = (Glyph.inscribe none .origin ['a', 'b', '%', 'x']).drop 2) ∧
    (Scanner.readToken (.compile [[⟨.one 'a', .finish (.routine (.digraph .openBrace))⟩]])).run
        (.ofSource (ofGlyphs [] none)) = (.ok none, .ofSource (ofGlyphs [] none), []) ∧
    Scanner.ofSource (ofGlyphs [] none) = .ofSource (ofGlyphs [] none) := by
  have hw : ∀ g ∈ Glyph.inscribe none .origin ['a', 'b', '%', 'x'], g.isEof = false := by decide
  refine ⟨hw, (fun hrun => ⟨hrun, ?_⟩) rfl, (fun hrun => ⟨hrun, ?_⟩) rfl⟩
  · obtain ⟨p, rest, hne, hp, hleaves, hs⟩ := (readToken_conserves _ hw none).1 _ _ _ hrun
    exact ⟨p, rest, hne, hp, hleaves, (congrArg (·.source.coming) hs).symm⟩
  · exact ((readToken_conserves (w := []) _ nofun none).2 _ _ hrun).2

end Replay

end Pretoken
