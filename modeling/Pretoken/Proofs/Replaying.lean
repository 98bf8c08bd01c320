import Pretoken.Proofs.Fitting
import Pretoken.Proofs.Kinds
import Pretoken.Proofs.Triple
import Pretoken.Source.Replay

/-!
# Tokens of a replay

A replay has nothing below it, so the glyphs in the draft of a scanner, those in its hand and those
still to come are always the same list.

* `Covers`: glyphs that stand for others, one for one or as digraphs.
* `Replay.Holding`: the draft, the glyphs in hand and those to come are a certain list.
* **`Replay.readToken_gives`**: reading a token takes a prefix that is not empty, and the token covers
  it.
-/

namespace Pretoken

open ScanM (Gives)

/-! ## Covering -/

/-- The glyphs stand for the others: each for itself or, as a digraph, for two. -/
inductive Covers : List Glyph → List Glyph → Prop
  | nil : Covers [] []
  | same (g : Glyph) {gs p : List Glyph} : Covers gs p → Covers (g :: gs) (g :: p)
  | pair (d : Digraph) (g h : Glyph) {gs p : List Glyph} :
    Covers gs p → Covers (.merged d.primary [g, h] :: gs) (g :: h :: p)

namespace Covers

variable {gs p : List Glyph}

theorem refl (gs : List Glyph) : Covers gs gs := by
  induction gs with
  | nil => exact .nil
  | cons g gs ih => exact .same g ih

theorem append (h : Covers gs p) {gs' p' : List Glyph} (h' : Covers gs' p') :
    Covers (gs ++ gs') (p ++ p') := by
  induction h with
  | nil => exact h'
  | same g _ ih => exact .same g ih
  | pair d g h _ ih => exact .pair d g h ih

theorem leavesAll_eq (h : Covers gs p) : Glyph.leavesAll gs = Glyph.leavesAll p := by
  induction h with
  | nil => rfl
  | same g _ ih => rw [Glyph.leavesAll, Glyph.leavesAll, ih]
  | pair d g h _ ih => simp [Glyph.leavesAll, Glyph.leaves, ih]

theorem placed (h : Covers gs p) (hp : ∀ g ∈ p, g.Placed) : ∀ g ∈ gs, g.Placed := by
  induction h with
  | nil => exact hp
  | same g _ ih =>
    rw [List.forall_mem_cons] at hp ⊢
    exact ⟨hp.1, ih hp.2⟩
  | pair d g h _ ih =>
    rw [List.forall_mem_cons, List.forall_mem_cons] at hp
    refine List.forall_mem_cons.2 ⟨Glyph.placed_merged _ (by simp) ?_, ih hp.2.2⟩
    simpa using ⟨hp.1, hp.2.1⟩

theorem ne_nil (h : Covers gs p) (hp : p ≠ []) : gs ≠ [] := by
  cases h with
  | nil => exact absurd rfl hp
  | same => simp
  | pair => simp

/-- What covers the front of a text can be the glyphs of a token. -/
theorem proper (h : Covers gs p) {w rest : List Glyph} (hw : ∀ g ∈ w, g.Placed) (hp : p ++ rest = w)
    (hne : p ≠ []) : gs ≠ [] ∧ ∀ g ∈ gs, g.isEof = false :=
  ⟨h.ne_nil hne, fun g hg => (h.placed (fun q hq => hw q (hp ▸ List.mem_append_left _ hq)) g hg).isEof⟩

/-- Glyphs of which none shows what a digraph stands for stand for themselves. -/
theorem eq_of_spelling (h : Covers gs p) (hs : ∀ d : Digraph, d.primary ∉ Glyph.spelling gs) : gs = p := by
  induction h with
  | nil => rfl
  | same g h ih =>
    rw [ih fun d hd => hs d ?_]
    rw [Glyph.spelling, List.filterMap_cons]
    split
    · exact hd
    · exact List.mem_cons_of_mem _ hd
  | pair d g h _ _ => exact absurd (by simp [Glyph.spelling]) (hs d)

end Covers

namespace Replay

open Scanner

variable {w hand : List Glyph} {n : Nat} {g : Glyph}

/-! ## Moves -/

/-- The draft of at least `n` glyphs, the glyphs in hand and those to come are the list `w`. -/
def Holding (w hand : List Glyph) (n : Nat) (s : Scanner Replay) : Prop :=
  s.draft.glyphs ++ (hand ++ s.source.coming) = w ∧ n ≤ s.draft.size

/-- The glyph `g` was looked at: it is the end, or it is in hand after the others. -/
def Looking (w hand : List Glyph) (n : Nat) (g : Glyph) (s : Scanner Replay) : Prop :=
  (g.isEof = true ∧ Holding w hand n s) ∨ (g.isEof = false ∧ Holding w (hand ++ [g]) n s)

theorem Holding.mono {m : Nat} {s : Scanner Replay} (h : Holding w hand n s) (hm : m ≤ n) :
    Holding w hand m s :=
  ⟨h.1, Nat.le_trans hm h.2⟩

theorem Looking.holding {s : Scanner Replay} (h : Looking w hand n g s) (hg : g.isEof = false) :
    Holding w (hand ++ [g]) n s := by
  rcases h with ⟨he, -⟩ | ⟨-, hs⟩
  · exact absurd (hg.symm.trans he) (by decide)
  · exact hs

theorem next_gives (hw : ∀ g ∈ w, g.isEof = false) :
    Gives (Holding w hand n) next (Looking w hand n) := by
  rintro ⟨⟨⟨coming, name, finish⟩, d⟩, log⟩ ⟨hs, hn⟩
  cases coming with
  | nil => exact ⟨_, _, rfl, .inl ⟨rfl, hs, hn⟩⟩
  | cons g coming =>
    refine ⟨g, _, rfl, .inr ⟨hw g ?_, ?_, hn⟩⟩
    · rw [← hs]
      simp
    · rw [← hs]
      simp

theorem keep_gives : Gives (Holding w (g :: hand) n) (keep g) fun _ => Holding w hand (n + 1) :=
  ScanM.change_gives fun s hs => by
    refine ⟨?_, ?_⟩
    · rw [← hs.1]
      simp
    · exact Nat.succ_le_succ hs.2

theorem keep_looked {c : Char} (hc : g.value? = some c) :
    Gives (Looking w [] n g) (keep g) fun _ => Holding w [] (n + 1) :=
  keep_gives.pre fun _ hs => hs.holding (Glyph.isEof_eq_false_of_value? hc)

theorem giveBack_eq (hg : g.isEof = false) (r : Logged Replay) :
    Source.giveBack g r = .ok () { r with state := { r.state with coming := g :: r.state.coming } } := by
  change giveBack g r = _
  rw [giveBack, hg, if_neg (by decide)]
  rfl

theorem giveBack_gives {P : Draft → List Glyph → Prop} (hg : g.isEof = false) :
    Gives (fun s : Scanner Replay => P s.draft (g :: s.source.coming)) (onSource (Source.giveBack g))
      fun _ s => P s.draft s.source.coming := by
  intro s hs
  refine ⟨(), ⟨⟨{ s.state.source with coming := g :: s.state.source.coming }, s.state.draft⟩, s.log⟩,
    ?_, hs⟩
  unfold onSource ScanM.onState onPart
  rw [giveBack_eq hg]

theorem putBack_any {P : Draft → List Glyph → Prop} :
    Gives (fun s : Scanner Replay =>
        if g.isEof then P s.draft s.source.coming else P s.draft (g :: s.source.coming))
      (putBack g) fun _ s => P s.draft s.source.coming := by
  unfold putBack Source.restore
  cases hg : g.isEof with
  | true => exact fun s hs => ⟨(), s, rfl, hs⟩
  | false => exact giveBack_gives hg

theorem putBack_gives : Gives (Looking w hand n g) (putBack g) fun _ => Holding w hand n := by
  refine (putBack_any (P := fun d coming => d.glyphs ++ (hand ++ coming) = w ∧ n ≤ d.size)).pre ?_
  rintro s (⟨hg, hs⟩ | ⟨hg, hs⟩)
  · rwa [if_pos hg]
  · rw [hg, if_neg (by decide)]
    simpa [Holding] using hs

theorem undo_gives (hw : ∀ g ∈ w, g.isEof = false) :
    Gives (Holding w [] (n + 1)) undo fun _ => Holding w [] n := by
  rintro ⟨⟨source, ⟨gs⟩⟩, log⟩ ⟨hs, hn⟩
  match gs, hs, hn with
  | g :: gs, hs, hn =>
    have hs' : gs.reverse ++ g :: source.coming = w := by simpa [Draft.glyphs] using hs
    have hg : g.isEof = false := hw g (by rw [← hs']; simp)
    exact giveBack_gives (P := fun d coming => d.glyphs ++ coming = w ∧ n ≤ d.size) hg
      ⟨⟨source, ⟨gs⟩⟩, log⟩ ⟨hs', Nat.le_of_succ_le_succ hn⟩

theorem undoMany_gives (hw : ∀ g ∈ w, g.isEof = false) (m : Nat) :
    Gives (Holding w [] (n + m)) (undoMany m) fun _ => Holding w [] n := by
  induction m with
  | zero => exact .pure _ fun s hs => hs
  | succ m ih => exact (undo_gives hw).bind fun _ => ih

/-! ## Classes of characters -/

section Routines

variable (hw : ∀ g ∈ w, g.isEof = false)
include hw

theorem accept_gives (p : Char → Bool) :
    Gives (Holding w [] n) (accept p) fun b => Holding w [] (n + b.toNat) := by
  refine (next_gives hw).bind fun g => ?_
  split
  · next hp =>
    obtain ⟨c, hc, -⟩ := (Option.any_eq_true p _).1 hp
    exact (keep_looked hc).bind fun _ => .pure _ fun s hs => hs
  · exact putBack_gives.bind fun _ => .pure _ fun s hs => hs

theorem acceptUpTo_gives (p : Char → Bool) (m : Nat) :
    Gives (Holding w [] n) (acceptUpTo p m) fun k => Holding w [] (n + k) := by
  induction m generalizing n with
  | zero => exact .pure _ fun s hs => hs
  | succ m ih =>
    refine (accept_gives hw p).bind fun b => ?_
    split
    · next hb =>
      subst hb
      refine (ih (n := n + 1)).bind fun k => .pure _ fun s hs => ?_
      simpa [Nat.add_assoc, Nat.add_comm 1] using hs
    · next hb => exact .pure _ fun s hs => hs.mono (Nat.le_add_right _ _)

theorem acceptWhile_gives (p : Char → Bool) :
    Gives (Holding w [] n) (acceptWhile p) fun _ => Holding w [] n := by
  refine ScanM.loop_gives (fun _ => Meets.map ((accept_gives hw p).post ?_)) ()
  intro b s hs
  cases b <;> exact hs.mono (Nat.le_add_right _ _)

/-- Look at the next glyph. At the end a turn is done, and the draft does not shrink. -/
theorem turn_gives {f : Glyph → ScanM (Scanner Replay) (Turn Unit Unit)}
    (hend : ∀ g, g.isEof = true → f g = pure (.done ()))
    (hf : ∀ g c, g.value? = some c → Gives (Holding w [g] n) (f g)
      (Turn.Post (fun _ => Holding w [] n) fun _ => Holding w [] n)) :
    Gives (Holding w [] n) (next >>= f) (Turn.Post (fun _ => Holding w [] n) fun _ => Holding w [] n) := by
  refine (next_gives hw).bind fun g => ?_
  rintro s (⟨hg, hs⟩ | ⟨hg, hs⟩)
  · rw [hend g hg]
    exact ⟨_, s, rfl, hs⟩
  · obtain ⟨c, hc⟩ := Glyph.exists_value_of_isEof hg
    exact hf g c hc s hs

omit hw in
theorem kept (g : Glyph) : Gives (Holding w [g] n) (keep g) fun _ => Holding w [] n :=
  keep_gives.post fun _ _ hs => hs.mono (Nat.le_succ n)

omit hw in
theorem returned {g : Glyph} {c : Char} (hc : g.value? = some c) :
    Gives (Holding w [g] n) (putBack g) fun _ => Holding w [] n :=
  putBack_gives.pre fun _ hs => .inr ⟨Glyph.isEof_eq_false_of_value? hc, hs⟩

/-! ## Routines -/

theorem blockComment_gives : Gives (Holding w [] n) blockComment fun _ => Holding w [] n := by
  refine ScanM.loop_gives (I := fun _ => Holding w [] n) (fun _ => ?_) ()
  refine turn_gives hw (fun g hg => if_pos hg) fun g c hc => ?_
  rw [if_neg (by rw [Glyph.isEof_eq_false_of_value? hc]; decide)]
  refine (kept g).bind fun _ => ?_
  split
  · refine (accept_gives hw _).bind fun b => ?_
    split
    · exact .pure _ fun s hs => hs.mono (Nat.le_add_right _ _)
    · exact .pure _ fun s hs => hs.mono (Nat.le_add_right _ _)
  · exact .pure _ fun s hs => hs

theorem headerName_gives (closing : Char) :
    Gives (Holding w [] n) (headerName closing) fun _ => Holding w [] n := by
  refine ScanM.loop_gives (I := fun _ => Holding w [] n) (fun _ => ?_) ()
  refine turn_gives hw (fun g hg => by rw [Glyph.value?_eq_none_iff.2 hg]) fun g c hc => ?_
  rw [hc]
  dsimp only
  split
  · exact (returned hc).bind fun _ => .pure _ fun s hs => hs
  · refine (kept g).bind fun _ => ?_
    split <;> exact .pure _ fun s hs => hs

theorem escape_gives : Gives (Holding w [] n) escape fun _ => Holding w [] n := by
  have upTo (p : Char → Bool) (m : Nat) :
      Gives (Holding w [] n) (discard (acceptUpTo p m)) fun _ => Holding w [] n :=
    .map ((acceptUpTo_gives hw p m).post fun _ _ hs => hs.mono (Nat.le_add_right _ _))
  refine (next_gives hw).bind fun g => ?_
  rintro s (⟨hg, hs⟩ | ⟨hg, hs⟩)
  · rw [Glyph.value?_eq_none_iff.2 hg]
    exact ⟨_, s, rfl, hs⟩
  · obtain ⟨c, hc⟩ := Glyph.exists_value_of_isEof hg
    rw [hc]
    dsimp only
    split
    · exact returned hc s hs
    · refine (kept g).bind (fun _ => ?_) s hs
      split_ifs
      · exact upTo _ _
      · exact acceptWhile_gives hw _
      · exact upTo _ _
      · exact upTo _ _
      · exact .pure _ fun s hs => hs

theorem literal_gives (quote : Char) :
    Gives (Holding w [] n) (literal quote) fun _ => Holding w [] n := by
  refine ScanM.loop_gives (I := fun _ => Holding w [] n) (fun _ => ?_) ()
  refine turn_gives hw (fun g hg => by rw [Glyph.value?_eq_none_iff.2 hg]) fun g c hc => ?_
  rw [hc]
  dsimp only
  split
  · exact (returned hc).bind fun _ => .pure _ fun s hs => hs
  · refine (kept g).bind fun _ => ?_
    split
    · exact .pure _ fun s hs => hs
    · split
      · exact (escape_gives hw).bind fun _ => .pure _ fun s hs => hs
      · exact .pure _ fun s hs => hs

theorem universalDigits_gives (m : Nat) :
    Gives (Holding w [] (n + 1)) (universalDigits m) fun _ => Holding w [] n := by
  refine (acceptUpTo_gives hw isHex m).bind fun k => ?_
  split
  · exact .pure _ fun s hs => hs.mono (by omega)
  · have hv : Gives (Holding w [] (n + (k + 1))) (onSource (ScanM.view Source.location)) fun _ =>
        Holding w [] (n + (k + 1)) := fun s hs => ⟨_, s, rfl, hs⟩
    refine (hv.pre fun s hs => hs.mono (by omega)).bind fun _ => ?_
    refine (ScanM.emit_gives _).bind fun _ => (undoMany_gives hw (k + 1)).bind fun _ => ?_
    exact .pure _ fun s hs => hs

theorem universalTail_gives :
    Gives (Holding w [] n) universalTail fun _ => Holding w [] n := by
  refine (next_gives hw).bind fun g => ?_
  split_ifs with hu hu'
  · exact (keep_looked (Glyph.is_iff.1 hu)).bind fun _ => universalDigits_gives hw 4
  · exact (keep_looked (Glyph.is_iff.1 hu')).bind fun _ => universalDigits_gives hw 8
  · exact putBack_gives.bind fun _ => .pure _ fun s hs => hs

theorem identifier_gives [Alphabet] : Gives (Holding w [] n) Scanner.identifier fun _ => Holding w [] n := by
  refine ScanM.loop_gives (I := fun _ => Holding w [] n) (fun _ => ?_) ()
  refine turn_gives hw (fun g hg => by rw [Glyph.value?_eq_none_iff.2 hg]) fun g c hc => ?_
  rw [hc]
  dsimp only
  split
  · exact (kept g).bind fun _ => .pure _ fun s hs => hs
  · split
    · refine keep_gives.bind fun _ => (universalTail_gives hw).bind fun b => ?_
      split
      · exact .pure _ fun s hs => hs.mono (Nat.le_succ n)
      · exact (undo_gives hw).bind fun _ => .pure _ fun s hs => hs
    · exact (returned hc).bind fun _ => .pure _ fun s hs => hs

theorem number_gives [Alphabet] : Gives (Holding w [] n) Scanner.number fun _ => Holding w [] n := by
  refine ScanM.loop_gives (I := fun _ => Holding w [] n) (fun _ => ?_) ()
  refine (ScanM.view_keeps (P := Holding w [] n) _).bind fun signed => ?_
  refine turn_gives hw (fun g hg => by rw [Glyph.value?_eq_none_iff.2 hg]) fun g c hc => ?_
  rw [hc]
  dsimp only
  split
  · exact (kept g).bind fun _ => .pure _ fun s hs => hs
  · exact (returned hc).bind fun _ => .pure _ fun s hs => hs

end Routines

/-! ## Digraphs -/

/-- The draft covers some glyphs; these, the glyphs in hand and those to come are the list `w`. -/
def Written (w hand : List Glyph) (s : Scanner Replay) : Prop :=
  ∃ p, Covers s.draft.glyphs p ∧ p ++ (hand ++ s.source.coming) = w ∧ p ≠ []

theorem Holding.written {s : Scanner Replay} (h : Holding w hand (n + 1) s) : Written w hand s := by
  refine ⟨s.draft.glyphs, .refl _, h.1, fun he => ?_⟩
  have hlen : s.draft.glyphs.length = s.draft.size := by simp [Draft.glyphs, Draft.size]
  have := h.2
  rw [← hlen, he] at this
  simp at this

/-- A token of the kind `k` is complete: its draft covers what was to come up to some place, and only an
identifier has the kind of a name. -/
def Completed (w : List Glyph) (k : TokenKind) (s : Scanner Replay) : Prop :=
  (k.isName = true → k = .identifier) ∧ Written w [] s

/-- The same, and unless a digraph was collapsed in a token of one of the kinds `pairs`, the draft is
what was to come. -/
def Finished (pairs : List TokenKind) (w : List Glyph) (k : TokenKind) (s : Scanner Replay) : Prop :=
  Completed w k s ∧ (k ∈ pairs ∨ Holding w [] 1 s)

theorem Holding.finished {s : Scanner Replay} (h : Holding w [] (n + 1) s) {pairs : List TokenKind}
    {k : TokenKind} (hk : k.isName = true → k = .identifier) : Finished pairs w k s :=
  ⟨⟨hk, h.written⟩, .inr (h.mono (Nat.le_add_left 1 n))⟩

theorem Finished.mono {pairs pairs' : List TokenKind} {k : TokenKind} {s : Scanner Replay}
    (h : Finished pairs w k s) (hp : pairs ⊆ pairs') : Finished pairs' w k s :=
  ⟨h.1, h.2.imp_left fun hk => hp hk⟩

section Placed

variable (hw : ∀ g ∈ w, g.Placed)
include hw

theorem collapse_gives (d : Digraph) :
    Gives (Holding w hand 2) (revise (·.collapse d.primary)) fun _ => Written w hand := by
  rintro ⟨⟨source, ⟨gs⟩⟩, log⟩ ⟨hs, hn⟩
  match gs, hs, hn with
  | h :: g :: gs, hs, hn =>
    have hs' : gs.reverse ++ [g, h] ++ (hand ++ source.coming) = w := by simpa [Draft.glyphs] using hs
    have hp : ∀ k ∈ [g, h], k.Placed := fun k hk =>
      hw k (hs' ▸ List.mem_append_left _ (List.mem_append_right _ hk))
    refine ⟨(), ⟨⟨source, ⟨.merged d.primary [g, h] :: gs⟩⟩, log⟩, ?_,
      gs.reverse ++ [g, h], ?_, hs', by simp⟩
    · simp only [revise, Draft.collapse, Glyph.merge_eq d.primary (List.cons_ne_nil _ _) hp]
      rfl
    · simpa [Draft.glyphs] using (Covers.refl gs.reverse).append (.pair d g h .nil)

theorem collapseTwo_gives (d e : Digraph) :
    Gives (Holding w hand 4) (revise (·.collapseTwo d.primary e.primary)) fun _ => Written w hand := by
  rintro ⟨⟨source, ⟨gs⟩⟩, log⟩ ⟨hs, hn⟩
  match gs, hs, hn with
  | k :: j :: h :: g :: gs, hs, hn =>
    have hs' : gs.reverse ++ [g, h, j, k] ++ (hand ++ source.coming) = w := by
      simpa [Draft.glyphs] using hs
    have hp : ∀ x ∈ [g, h, j, k], x.Placed := fun x hx =>
      hw x (hs' ▸ List.mem_append_left _ (List.mem_append_right _ hx))
    refine ⟨(), ⟨⟨source, ⟨.merged e.primary [j, k] :: .merged d.primary [g, h] :: gs⟩⟩, log⟩, ?_,
      gs.reverse ++ [g, h, j, k], ?_, hs', by simp⟩
    · have h₁ := Glyph.merge_eq d.primary (List.cons_ne_nil g [h]) fun x hx =>
        hp x (List.mem_append_left [j, k] hx)
      have h₂ := Glyph.merge_eq e.primary (List.cons_ne_nil j [k]) fun x hx =>
        hp x (List.mem_append_right [g, h] hx)
      simp only [revise, Draft.collapseTwo, h₁, h₂]
      rfl
    · simpa [Draft.glyphs] using (Covers.refl gs.reverse).append (.pair d g h (.pair e j k .nil))

theorem sharpDigraph_gives :
    Gives (Holding w [] 2) Scanner.sharpDigraph fun _ => Written w [] := by
  have hw' : ∀ g ∈ w, g.isEof = false := fun g hg => (hw g hg).isEof
  refine (next_gives hw').bind fun percent => ?_
  split
  · next hp =>
    have hp' := Glyph.isEof_eq_false_of_value? (Glyph.is_iff.1 hp)
    have hnext : Gives (Holding w [percent] 2) next (Looking w [percent] 2) := next_gives hw'
    refine (hnext.pre fun s hs => hs.holding hp').bind fun colon => ?_
    split
    · next hc =>
      have hc' := Glyph.isEof_eq_false_of_value? (Glyph.is_iff.1 hc)
      exact (keep_gives.pre fun s hs => hs.holding hc').bind fun _ => keep_gives.bind fun _ =>
        collapseTwo_gives hw .doubleSharp .doubleSharp
    · exact putBack_gives.bind fun _ => (returned (Glyph.is_iff.1 hp)).bind fun _ =>
        collapse_gives hw .sharp
  · -- what was looked at is put back only after the digraph has been collapsed
    refine Meets.bind (Q := fun _ s =>
        if percent.isEof then Written w [] s.state else Written w [percent] s.state)
      (fun s hs => ?_) fun _ => putBack_any
        (P := fun d coming => ∃ p, Covers d.glyphs p ∧ p ++ coming = w ∧ p ≠ [])
    rcases hs with ⟨he, hs⟩ | ⟨he, hs⟩
    · simpa only [he, if_true] using collapse_gives hw .sharp s hs
    · have hs' : Holding w [percent] 2 s.state := hs
      simpa only [he, Bool.false_eq_true, if_false] using collapse_gives hw .sharp s hs'

/-! ## Following a table -/

variable [Alphabet]

theorem Routine.run_gives {r : Routine} {inert : Bool} (hr : r.fits (n + 1) inert = true) :
    Gives (Holding w [] (n + 1)) r.run (Finished (Rule.routine r).pairKinds w) := by
  have hw' : ∀ g ∈ w, g.isEof = false := fun g hg => (hw g hg).isEof
  have one {m : ScanM (Scanner Replay) Unit} {k : TokenKind} (hk : k.isName = true → k = .identifier)
      (hm : Gives (Holding w [] (n + 1)) m fun _ => Holding w [] (n + 1)) :
      Gives (Holding w [] (n + 1)) (do m; return k) (Finished (Rule.routine r).pairKinds w) :=
    hm.bind fun _ => .pure _ fun s hs => hs.finished hk
  cases r with
  | blanks => exact one nofun (acceptWhile_gives hw' _)
  | directiveBlanks => exact one nofun (acceptWhile_gives hw' _)
  | blockComment => exact one nofun (blockComment_gives hw')
  | lineComment => exact one nofun (acceptWhile_gives hw' _)
  | literal quote kind =>
    have hk : kind.isName = false := by simpa [Routine.fits] using hr
    exact one (by simp [hk]) (literal_gives hw' quote)
  | headerName closing kind =>
    have hk : kind.isName = false := by simpa [Routine.fits] using hr
    exact one (by simp [hk]) (headerName_gives hw' closing)
  | identifier => exact one (fun _ => rfl) (identifier_gives hw')
  | universalName digits =>
    have hn : inert = true ∧ 1 ≤ n := by simpa [Routine.fits] using hr
    obtain ⟨m, rfl⟩ := Nat.exists_eq_add_of_le' hn.2
    refine (universalDigits_gives hw' digits).bind fun b => ?_
    split
    · exact (identifier_gives hw').bind fun _ => .pure _ fun s hs => hs.finished fun _ => rfl
    · exact .pure _ fun s hs => hs.finished nofun
  | number => exact one nofun (number_gives hw')
  | ellipsis =>
    have hn : inert = true ∧ 1 ≤ n := by simpa [Routine.fits] using hr
    obtain ⟨m, rfl⟩ := Nat.exists_eq_add_of_le' hn.2
    refine (accept_gives hw' _).bind fun b => ?_
    split
    · exact .pure _ fun s hs => (hs.mono (Nat.le_add_right _ _)).finished nofun
    · exact ((undo_gives hw').pre fun s hs => hs.mono (Nat.le_add_right _ _)).bind
        fun _ => .pure _ fun s hs => hs.finished nofun
  | digraph d =>
    have hn : 2 ≤ n + 1 := by simpa [Routine.fits] using hr
    exact ((collapse_gives hw d).pre fun s hs => hs.mono hn).bind fun _ =>
      .pure _ fun s hs => ⟨⟨nofun, hs⟩, .inl List.mem_cons_self⟩
  | sharpDigraph kind =>
    have hn : 2 ≤ n + 1 ∧ kind.isName = false := by simpa [Routine.fits] using hr
    exact ((sharpDigraph_gives hw).pre fun s hs => hs.mono hn.1).bind fun _ =>
      .pure _ fun s hs => ⟨⟨by simp [hn.2], hs⟩, .inl List.mem_cons_self⟩
  | shift c =>
    have test (p : Char → Bool) :
        Gives (Holding w [] (n + 1)) (discard (accept p)) fun _ => Holding w [] (n + 1) :=
      .map ((accept_gives hw' p).post fun _ _ hs => hs.mono (Nat.le_add_right _ _))
    exact (test _).bind fun _ => (test _).bind fun _ => .pure _ fun s hs => hs.finished nofun

theorem Rule.run_gives {r : Rule} {inert : Bool} (hr : r.fits (n + 1) inert = true) :
    Gives (Holding w [] (n + 1)) r.run (Finished r.pairKinds w) := by
  cases r with
  | fixed kind =>
    have hk : kind.isName = false := by simpa [Rule.fits] using hr
    exact .pure _ fun s hs => hs.finished (by simp [hk])
  | routine r => exact Routine.run_gives hw hr

mutual

theorem Action.run_gives : (action : Action) → (n : Nat) → (inert : Bool) →
    action.fits (n + 1) inert = true →
    Gives (Holding w [] (n + 1)) action.run (Finished (action.gather Rule.pairKinds) w)
  | .finish rule, n, inert, h => by
    rw [Action.fits] at h
    exact Rule.run_gives hw h
  | .nested cases otherwise, n, inert, h => by
    rw [Action.fits, Bool.and_eq_true] at h
    exact (next_gives fun g hg => (hw g hg).isEof).bind fun g =>
      Case.choose_gives cases otherwise n inert h.2 h.1 g

theorem Case.choose_gives : (cases : List Case) → (otherwise : Rule) → (n : Nat) → (inert : Bool) →
    Case.allFit (n + 2) cases = true → otherwise.fits (n + 1) inert = true → (g : Glyph) →
    Gives (Looking w [] (n + 1) g) (Case.choose cases otherwise g)
      (Finished (otherwise.pairKinds ++ Case.gather Rule.pairKinds cases) w)
  | [], otherwise, n, inert, _, ho, g => by
    unfold Case.choose
    exact putBack_gives.bind fun _ => (Rule.run_gives hw ho).post fun _ _ hs =>
      hs.mono (List.subset_append_left _ _)
  | ⟨chars, action⟩ :: cases, otherwise, n, inert, hc, ho, g => by
    rw [Case.allFit, Bool.and_eq_true] at hc
    unfold Case.choose
    split
    · next hg =>
      obtain ⟨c, hv, -⟩ := (Option.any_eq_true _ _).1 hg
      refine (keep_looked hv).bind fun _ =>
        (Action.run_gives action (n + 1) chars.isInert hc.1).post fun _ _ hs => hs.mono ?_
      exact List.subset_append_of_subset_right _ (List.subset_append_left _ _)
    · refine (Case.choose_gives cases otherwise n inert hc.2 ho g).post fun _ _ hs => hs.mono ?_
      exact List.append_subset.2 ⟨List.subset_append_left _ _, List.subset_append_of_subset_right _
        (List.subset_append_right _ _)⟩

end

theorem readRest_gives {table : Table} (hf : table.fits = true) (lead : Char) :
    Gives (Holding w [] 1) (readRest table lead) (Finished (table.gather Rule.pairKinds) w) := by
  unfold readRest
  split
  · next action ha =>
    exact (Action.run_gives hw action 0 false (Table.fits_of_lookup hf ha)).post fun _ _ hs =>
      hs.mono (Table.gather_of_lookup ha)
  · split
    · have hr : Routine.identifier.fits 1 false = true := rfl
      exact (Routine.run_gives hw hr).post fun _ _ hs => hs.mono (List.nil_subset _)
    · exact .pure _ fun s hs => hs.finished nofun

end Placed

/-! ## Tokens -/

/-- Nothing has been read of the next token, and the glyphs `w` are to come. -/
def Ready (w : List Glyph) (s : Scanner Replay) : Prop :=
  s.draft = .empty ∧ s.source.coming = w

theorem finish_gives {S : List Glyph → List Glyph → Prop} (k : TokenKind)
    (hS : ∀ gs coming, S gs coming → gs ≠ [] ∧ ∀ g ∈ gs, g.isEof = false) :
    Gives (fun s : Scanner Replay => S s.draft.glyphs s.source.coming) (Scanner.finish k) fun t s =>
      t.kind = k ∧ t.children = [] ∧ ∃ coming, Ready coming s ∧ S t.glyphs coming := by
  rintro ⟨⟨source, d⟩, log⟩ hs
  obtain ⟨hne, hg⟩ := hS _ _ hs
  refine ⟨⟨d.glyphs, k, []⟩, ⟨⟨source, .empty⟩, log⟩, ?_, rfl, rfl, _, ⟨rfl, rfl⟩, hs⟩
  have ht : d.toToken k = .ok ⟨d.glyphs, k, []⟩ := by
    rw [Draft.toToken, if_neg (by simpa [Draft.isEmpty, Draft.glyphs] using hne)]
    exact Token.make_eq_ok_iff.2 ⟨hne, hg, rfl⟩
  unfold Scanner.finish
  simp only [ht]

/-- A token is read by reading its first glyph, which decides how to go on. -/
theorem readToken_cons [Alphabet] {table : Table} {c : Char} {S : TokenKind → List Glyph → List Glyph → Prop}
    (hg : g.value? = some c) (hS : ∀ k gs coming, S k gs coming → gs ≠ [] ∧ ∀ g ∈ gs, g.isEof = false)
    (hrest : Gives (fun s : Scanner Replay => s.draft = ⟨[g]⟩ ∧ s.source.coming = w) (readRest table c)
      fun k s => S k s.draft.glyphs s.source.coming) :
    Gives (Ready (g :: w)) (readToken table) fun o s =>
      ∃ t coming, o = some t ∧ t.children = [] ∧ Ready coming s ∧ S t.kind t.glyphs coming := by
  rintro ⟨⟨⟨coming, name, finish⟩, d⟩, log⟩ ⟨rfl, rfl⟩
  unfold readToken
  refine Meets.bind (P := (· = _)) (Q := fun h s => h = g ∧ s = ⟨⟨⟨w, name, finish⟩, .empty⟩, log⟩)
    (fun s hs => ⟨g, _, by rw [hs]; rfl, rfl, rfl⟩) (fun h => .of_prop ?_) _ rfl
  rintro rfl
  rw [hg]
  refine Meets.bind (Q := fun _ s => s.state.draft = ⟨[h]⟩ ∧ s.state.source.coming = w)
    (fun s hs => ⟨(), _, rfl, ?_⟩) fun _ => hrest.bind fun k => ?_
  · rw [hs]
    exact ⟨rfl, rfl⟩
  · refine (finish_gives (S := S k) k (hS k)).bind fun t => .pure _ fun s hs => ?_
    obtain ⟨rfl, hc, coming, hr, hs⟩ := hs
    exact ⟨t, coming, rfl, hc, hr, hs⟩

/-- What came of reading a token where the glyphs `w` were to come. -/
def Reads (w : List Glyph) : Option Token → Scanner Replay → Prop
  | none, s => w = [] ∧ Ready [] s
  | some t, s => (t.kind.isName = true → t.kind = .identifier) ∧ t.children = [] ∧
      ∃ p rest, p ≠ [] ∧ w = p ++ rest ∧ Covers t.glyphs p ∧ Ready rest s

/-- **A token covers a prefix of what was to come**, and the rest is still to come. -/
theorem readToken_gives [Alphabet] {table : Table} (hf : table.fits = true) (hw : ∀ g ∈ w, g.Placed) :
    Gives (Ready w) (readToken table) (Reads w) := by
  cases w with
  | nil =>
    rintro ⟨⟨⟨coming, name, finish⟩, d⟩, log⟩ ⟨rfl, rfl⟩
    exact ⟨none, _, rfl, rfl, rfl, rfl⟩
  | cons g w =>
    obtain ⟨c, hc⟩ := (hw g (by simp)).exists_value
    refine (readToken_cons (S := fun k gs coming => (k.isName = true → k = .identifier) ∧
      ∃ p, Covers gs p ∧ p ++ coming = g :: w ∧ p ≠ []) hc ?_ ?_).post ?_
    · rintro k gs coming ⟨-, p, hp, hpw, hne⟩
      exact hp.proper hw hpw hne
    · refine ((readRest_gives hw hf c).post fun _ _ hs => hs.1).pre fun s hs => ?_
      refine ⟨?_, ?_⟩
      · rw [hs.1, hs.2]
        rfl
      · rw [hs.1]
        exact Nat.le_refl 1
    · rintro o s ⟨t, coming, rfl, hch, hr, hk, p, hp, hpw, hne⟩
      exact ⟨hk, hch, p, coming, hne, hpw.symm, hp, hr⟩

end Replay

end Pretoken
