import Pretoken.Proofs.Tiling

/-!
# Substitutions on record

A trigraph that is replaced and a splice that is made leave a line in the log and a trace in the glyphs. As long as
the log and the glyphs are in balance, both tell of the same substitutions.

* `Glyph.trigraph?`, `Glyph.deleted`: the trigraph that a glyph stands for, and the pairs deleted in front of it.
* `Glyph.trigraphs`, `Glyph.deletions`: all of them in the glyphs that some glyphs are made of.
* `Balanced`: the log tells of what is in the glyphs, and of some more splices.
* `Balanced.trigraph`, `Balanced.splice`, **`Balanced.attach`**, `Balanced.covers`: what keeps the balance.
-/

namespace Pretoken

/-! ## What a log tells -/

namespace Event

/-- A trigraph as it was written and the character in its place, if the event tells of one. -/
def trigraph? : Event → Option (String × Char)
  | trigraph raw value => some (raw, value)
  | _ => none

/-- Whether the event tells of a splice. -/
def isSplice : Event → Bool
  | splice _ => true
  | _ => false

end Event

/-! ## What glyphs tell -/

namespace Glyph

/-- A trigraph as it was written and the character in its place, if the glyph is that character over the three. -/
def trigraph? : Glyph → Option (String × Char)
  | g@(merged v [plain '?' _ _, plain '?' _ _, plain x _ _]) =>
    if Trigraph.replacement? x = some v then some (g.raw, v) else none
  | _ => none

/-- The pairs of a backslash and a line feed with which the glyphs begin. -/
def pairs : List Glyph → List (Glyph × Glyph)
  | b :: n :: gs => if b.is '\\' && n.is '\n' then (b, n) :: pairs gs else []
  | _ => []

/-- The pairs that were deleted in front of the glyph. A character is its own last part; an end is not. -/
def deleted : Glyph → List (Glyph × Glyph)
  | plain _ _ _ => []
  | merged _ ps => pairs ps.dropLast
  | eof _ ps => pairs ps

/-- The trigraphs in the glyphs and in all that they are made of, from left to right. -/
def trigraphs (gs : List Glyph) : List (String × Char) := (nodesAll gs).filterMap trigraph?

/-- How many pairs were deleted in the glyphs and in all that they are made of. -/
def deletions (gs : List Glyph) : Nat := ((nodesAll gs).flatMap deleted).length

/-- The glyph is a character as it was read. -/
def IsPlain (g : Glyph) : Prop := ∃ c name l, g = plain c name l

variable {c v : Char} {gs hs ps : List Glyph} {name : Option String}

theorem nodesAll_append (gs hs : List Glyph) : nodesAll (gs ++ hs) = nodesAll gs ++ nodesAll hs := by
  induction gs with
  | nil => rfl
  | cons g gs ih => rw [List.cons_append, nodesAll, nodesAll, ih, List.append_assoc]

@[simp] theorem trigraphs_append (gs hs : List Glyph) : trigraphs (gs ++ hs) = trigraphs gs ++ trigraphs hs := by
  rw [trigraphs, nodesAll_append, List.filterMap_append]
  rfl

@[simp] theorem deletions_append (gs hs : List Glyph) : deletions (gs ++ hs) = deletions gs + deletions hs := by
  rw [deletions, nodesAll_append, List.flatMap_append, List.length_append]
  rfl

theorem trigraphs_merged (h : (merged c ps).trigraph? = none) : trigraphs [merged c ps] = trigraphs ps := by
  simp [trigraphs, nodesAll, nodes, h]

theorem deletions_merged : deletions [merged c ps] = (pairs ps.dropLast).length + deletions ps := by
  simp [deletions, nodesAll, nodes, deleted]

theorem trigraphs_eof : trigraphs [eof name ps] = trigraphs ps := by
  have h : (eof name ps).trigraph? = none := rfl
  simp [trigraphs, nodesAll, nodes, h]

theorem deletions_eof : deletions [eof name ps] = (pairs ps).length + deletions ps := by
  simp [deletions, nodesAll, nodes, deleted]

/-- What was read as it stands tells of nothing. -/
theorem nodesAll_of_isPlain (h : ∀ g ∈ gs, g.IsPlain) : nodesAll gs = gs := by
  induction gs with
  | nil => rfl
  | cons g gs ih =>
    rw [List.forall_mem_cons] at h
    obtain ⟨⟨c, name, l, rfl⟩, h⟩ := h
    rw [nodesAll, nodes, ih h]
    rfl

theorem trigraphs_of_isPlain (h : ∀ g ∈ gs, g.IsPlain) : trigraphs gs = [] := by
  rw [trigraphs, nodesAll_of_isPlain h, List.filterMap_eq_nil_iff]
  intro g hg
  obtain ⟨c, name, l, rfl⟩ := h g hg
  rfl

theorem deletions_of_isPlain (h : ∀ g ∈ gs, g.IsPlain) : deletions gs = 0 := by
  rw [deletions, nodesAll_of_isPlain h, List.length_eq_zero_iff, List.flatMap_eq_nil_iff]
  intro g hg
  obtain ⟨c, name, l, rfl⟩ := h g hg
  rfl

theorem isPlain_of_mem_inscribe {l : Location} {cs : List Char} {g : Glyph} (h : g ∈ inscribe name l cs) :
    g.IsPlain := by
  induction cs generalizing l with
  | nil => cases h
  | cons c cs ih =>
    rcases List.mem_cons.1 h with rfl | h
    · exact ⟨c, name, l, rfl⟩
    · exact ih h

/-! ## Glyphs in place of others -/

variable {a b k : Glyph}

/-- A glyph in the place of a trigraph tells of that trigraph, and of nothing else. -/
theorem trigraphs_trigraph (h : ∀ g ∈ a :: b :: k :: gs, g.IsPlain) (ht : trigraphAt? (a :: b :: k :: gs) = some v) :
    trigraphs [merged v [a, b, k]] = [((merged v [a, b, k]).raw, v)] ∧ deletions [merged v [a, b, k]] = 0 := by
  simp only [List.forall_mem_cons] at h
  obtain ⟨⟨x, m, l, rfl⟩, ⟨y, m', l', rfl⟩, ⟨z, m'', l'', rfl⟩, -⟩ := h
  simp only [trigraphAt?, is, value?_plain, beq_iff_eq, Option.some.injEq, Option.bind_some] at ht
  split at ht
  · next hq =>
    obtain ⟨rfl, rfl⟩ := hq
    have htrigraph : (merged v [plain '?' m l, plain '?' m' l', plain z m'' l'']).trigraph? =
        some ((merged v [plain '?' m l, plain '?' m' l', plain z m'' l'']).raw, v) := by
      rw [trigraph?, if_pos ht]
    constructor
    · rw [trigraphs, nodesAll, nodes, List.cons_append, List.filterMap_cons_some htrigraph]
      rfl
    · rfl
  · cases ht

/-- The glyphs tell of the same trigraphs and of as many deleted pairs. -/
structure TellSame (gs hs : List Glyph) : Prop where
  trigraphs : trigraphs gs = trigraphs hs
  deletions : deletions gs = deletions hs

theorem TellSame.refl (gs : List Glyph) : TellSame gs gs := ⟨rfl, rfl⟩

theorem TellSame.append {gs' hs' : List Glyph} (h : TellSame gs hs) (h' : TellSame gs' hs') :
    TellSame (gs ++ gs') (hs ++ hs') where
  trigraphs := by rw [trigraphs_append, trigraphs_append, h.trigraphs, h'.trigraphs]
  deletions := by rw [deletions_append, deletions_append, h.deletions, h'.deletions]

/-- A glyph in the place of a digraph tells of what the two of it tell. -/
theorem tellSame_pair (d : Digraph) (a b : Glyph) : TellSame [merged d.primary [a, b]] [a, b] := by
  have hnone : (merged d.primary [a, b]).trigraph? = none := by
    unfold trigraph?
    split
    · next h => cases h
    · rfl
  exact ⟨trigraphs_merged hnone, deletions_merged.trans (Nat.zero_add _)⟩

theorem tellSame_of_covers (h : Covers gs hs) : TellSame gs hs := by
  induction h with
  | nil => exact .refl []
  | same g _ ih => exact (TellSame.refl [g]).append ih
  | pair d g h _ ih => exact (tellSame_pair d g h).append ih

theorem length_pairs (h : Splices ps) : (pairs ps).length = ps.length / 2 := by
  induction h with
  | nil => rfl
  | pair hb hn _ ih =>
    rw [pairs, hb, hn, if_pos (by rfl), List.length_cons, ih, List.length_cons, List.length_cons]
    omega

/-- A glyph tells of what was deleted in front of it, and of what all these tell. -/
theorem trigraphs_attach (h : Splices ps) {g : Glyph} (hg : g.isEof = false) :
    trigraphs [attach ps g] = trigraphs (ps ++ [g]) ∧
      deletions [attach ps g] = deletions (ps ++ [g]) + ps.length / 2 := by
  obtain ⟨c, hc⟩ := exists_value_of_isEof hg
  cases h with
  | nil => exact ⟨rfl, rfl⟩
  | @pair b n ps hb hn hps =>
    have hattach : attach (b :: n :: ps) g = merged c (b :: n :: ps ++ [g]) := by simp [attach, hc]
    have hnone : (merged c (b :: n :: ps ++ [g])).trigraph? = none := by
      unfold trigraph?
      split
      · next heq =>
        injection heq with _ heq
        rw [List.cons_append] at heq
        injection heq with hquery _
        rw [hquery] at hb
        cases hb
      · rfl
    rw [hattach, trigraphs_merged hnone, deletions_merged, List.dropLast_concat, length_pairs (.pair hb hn hps)]
    exact ⟨rfl, Nat.add_comm _ _⟩

theorem trigraphs_endAfter (h : Splices ps) :
    trigraphs [eof name ps] = trigraphs ps ∧ deletions [eof name ps] = deletions ps + ps.length / 2 := by
  rw [deletions_eof, length_pairs h]
  exact ⟨trigraphs_eof, Nat.add_comm _ _⟩

end Glyph

/-! ## Log and glyphs in balance -/

open Glyph

/-- The log, its latest event first, tells of the trigraphs in the glyphs, in order; and it tells of as many splices as
there are in the glyphs, and of `extra` more. -/
structure Balanced (extra : Nat) (log : List Event) (gs : List Glyph) : Prop where
  trigraphs : log.reverse.filterMap Event.trigraph? = Glyph.trigraphs gs
  splices : log.countP Event.isSplice = Glyph.deletions gs + extra

namespace Balanced

variable {extra more : Nat} {log : List Event} {gs hs ps front rest : List Glyph} {g : Glyph} {name : Option String}

theorem congr (h : Balanced extra log gs) (ht : Glyph.trigraphs hs = Glyph.trigraphs gs)
    (hd : deletions hs + more = deletions gs + extra) : Balanced more log hs :=
  ⟨h.trigraphs.trans ht.symm, h.splices.trans hd.symm⟩

/-- What was read as it stands is in balance with an empty log. -/
theorem of_isPlain (h : ∀ g ∈ gs, g.IsPlain) : Balanced 0 [] gs :=
  ⟨(trigraphs_of_isPlain h).symm, by rw [deletions_of_isPlain h]; rfl⟩

/-- An event that tells of neither kind of substitution changes nothing. -/
theorem other (h : Balanced extra log gs) {e : Event} (ht : e.trigraph? = none) (hs : e.isSplice = false) :
    Balanced extra (e :: log) gs := by
  refine ⟨?_, ?_⟩
  · rw [List.reverse_cons, List.filterMap_append, h.trigraphs, List.filterMap_cons_none ht]
    exact List.append_nil _
  · rw [List.countP_cons_of_neg (by rw [hs]; decide), h.splices]

/-- A splice is told of before it is in the glyphs. -/
theorem splice (h : Balanced extra log gs) (l : Location) : Balanced (extra + 1) (.splice l :: log) gs := by
  refine ⟨?_, ?_⟩
  · rw [List.reverse_cons, List.filterMap_append, h.trigraphs]
    exact List.append_nil _
  · rw [List.countP_cons_of_pos rfl, h.splices, Nat.add_assoc]

/-- A trigraph is replaced, and there are none behind it. -/
theorem trigraph {a b k : Glyph} {v : Char} (h : Balanced extra log (front ++ a :: b :: k :: gs))
    (hp : ∀ g ∈ a :: b :: k :: gs, g.IsPlain) (ht : trigraphAt? (a :: b :: k :: gs) = some v) :
    Balanced extra (.trigraph (merged v [a, b, k]).raw v :: log) (front ++ merged v [a, b, k] :: gs) := by
  obtain ⟨hone, hzero⟩ := trigraphs_trigraph hp ht
  have hgs : ∀ g ∈ gs, g.IsPlain := fun g hg => hp g (by simp [hg])
  have hbefore := h.trigraphs
  have hcount := h.splices
  rw [trigraphs_append, trigraphs_of_isPlain hp, List.append_nil] at hbefore
  rw [deletions_append, deletions_of_isPlain hp] at hcount
  rw [List.append_cons]
  refine ⟨?_, ?_⟩
  · rw [trigraphs_append, trigraphs_append, hone, trigraphs_of_isPlain hgs, List.reverse_cons, List.filterMap_append,
      hbefore, List.append_nil]
    rfl
  · rw [deletions_append, deletions_append, hzero, deletions_of_isPlain hgs,
      List.countP_cons_of_neg (by simp [Event.isSplice]), hcount]

/-- **What was deleted is attached to the glyph that follows**, and the glyphs tell of it themselves. -/
theorem attach (h : Balanced (ps.length / 2) log (front ++ ps ++ g :: rest)) (hp : Splices ps) (hg : g.isEof = false) :
    Balanced 0 log (front ++ Glyph.attach ps g :: rest) := by
  obtain ⟨ht, hd⟩ := trigraphs_attach hp hg
  rw [List.append_assoc, List.append_cons ps, ← List.append_assoc] at h
  rw [List.append_cons]
  refine h.congr ?_ ?_
  · simp only [trigraphs_append, ht]
  · simp only [deletions_append, hd]
    omega

/-- If nothing follows, the end keeps what was deleted. -/
theorem endAfter (h : Balanced (ps.length / 2) log (front ++ ps)) (hp : Splices ps) :
    Balanced 0 log (front ++ [eof name ps]) := by
  obtain ⟨ht, hd⟩ : Glyph.trigraphs [eof name ps] = Glyph.trigraphs ps ∧ _ := trigraphs_endAfter hp
  refine h.congr ?_ ?_
  · simp only [trigraphs_append, ht]
  · simp only [deletions_append, hd]
    omega

theorem covers (h : Balanced extra log (front ++ hs ++ rest)) (hc : Covers gs hs) :
    Balanced extra log (front ++ gs ++ rest) := by
  have hsame := ((TellSame.refl front).append (tellSame_of_covers hc)).append (.refl rest)
  exact h.congr hsame.trigraphs (by rw [hsame.deletions])

end Balanced

end Pretoken
