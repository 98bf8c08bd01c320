import Pretoken.Proofs.Extent
import Pretoken.Proofs.Lexemes

/-!
# Scanners read as far as a token reaches

A scanner over a replay of the glyphs `w` is, at the start and at the end of every routine, at some place of `w`: what
comes before it is in the draft, and the rest is to come.

* `Replay.Reached`: the scanner is at a place of `w`.
* `Replay.loop_reached`: a loop whose turns do not change where it is to stop.
* `Replay.literal_reached`, `Replay.identifier_reached` and others: where each routine stops.
* `Replay.Munched`: what comes of a token is in the draft.
* **`Replay.readToken_munch`**: a scanner reads the token that the table makes of the characters.
-/

namespace Pretoken

open ScanM (Gives)
open Text

/-! ## Characters at a place -/

section Place

variable {α : Type} {cs : List α} {c : α} {n : Nat}

theorem drop_of_some (h : cs[n]? = some c) : cs.drop n = c :: cs.drop (n + 1) := by
  rw [List.drop_eq_getElem?_toList_append, h]
  rfl

theorem drop_of_none (h : cs[n]? = none) : cs.drop n = [] :=
  List.drop_eq_nil_of_le (List.getElem?_eq_none_iff.1 h)

theorem exists_of_two_le_length (h : 2 ≤ cs.length) : ∃ a b ds, cs = a :: b :: ds := by
  rcases cs with _ | ⟨a, _ | ⟨b, ds⟩⟩
  · simp at h
  · simp at h
  · exact ⟨a, b, ds, rfl⟩

theorem any_beq [DecidableEq α] (o : Option α) (c : α) : o.any (· == c) = decide (o = some c) := by
  cases o with
  | none => rfl
  | some d => exact Bool.eq_iff_iff.2 (by simp)

end Place

namespace Text

variable {σ : Type} {step : σ → Char → Verdict σ} {s s' : σ} {cs : List Char} {c : Char} {n : Nat}

theorem reach_of_none (h : cs[n]? = none) : reach step s (cs.drop n) = 0 := by
  rw [drop_of_none h]
  rfl

theorem reach_of_before (h : cs[n]? = some c) (hs : step s c = .before) : reach step s (cs.drop n) = 0 := by
  rw [drop_of_some h, reach, hs]

theorem reach_of_after (h : cs[n]? = some c) (hs : step s c = .after) : reach step s (cs.drop n) = 1 := by
  rw [drop_of_some h, reach, hs]

theorem reach_of_on (h : cs[n]? = some c) (hs : step s c = .on s') :
    reach step s (cs.drop n) = reach step s' (cs.drop (n + 1)) + 1 := by
  rw [drop_of_some h, reach, hs]

/-- A reader takes characters that leave it as it is, and goes on after them. -/
theorem reach_drop {k : Nat} (h : ∀ c ∈ cs.take k, step s c = .on s) (hk : k ≤ cs.length) :
    reach step s cs = k + reach step s (cs.drop k) := by
  induction k generalizing cs with
  | zero => rw [List.drop_zero, Nat.zero_add]
  | succ k ih =>
    cases cs with
    | nil => cases hk
    | cons c cs =>
      rw [List.take_succ_cons, List.forall_mem_cons] at h
      rw [reach, h.1, List.drop_succ_cons]
      dsimp only
      rw [ih h.2 (Nat.le_of_succ_le_succ hk)]
      omega

theorem of_mem_upTo {p : Char → Bool} (h : c ∈ cs.take (upTo p n cs)) : p c = true :=
  Decidable.byContradiction fun hp => not_mem_reach (fun _ => if_neg fun hk => hp hk.2) n cs h

theorem of_mem_runLength {p : Char → Bool} (h : c ∈ cs.take (runLength p cs)) : p c = true :=
  Decidable.byContradiction fun hp => not_mem_reach (fun _ => if_neg hp) () cs h

theorem upTo_one (p : Char → Bool) : upTo p 1 (cs.drop n) = (cs[n]?.any p).toNat := by
  cases h : cs[n]? with
  | none => exact reach_of_none h
  | some c =>
    rw [drop_of_some h, upTo_succ_cons, upTo_zero]
    cases hp : p c <;> simp [hp]

/-- A star that no slash follows does not matter. -/
theorem commentLength_true (h : cs[n]? ≠ some '/') :
    commentLength true (cs.drop n) = commentLength false (cs.drop n) := by
  cases hc : cs[n]? with
  | none => exact (reach_of_none hc).trans (reach_of_none hc).symm
  | some c =>
    have hne : c ≠ '/' := fun he => h (by rw [hc, he])
    have hon (star : Bool) :
        commentLength star (cs.drop n) = commentLength (c == '*') (cs.drop (n + 1)) + 1 :=
      reach_of_on hc (if_neg fun hs => hne hs.2)
    rw [hon, hon]

theorem isHex_of_isOctal (h : isOctal c = true) : isHex c = true := by
  simp only [isOctal, isHex, isDigit, Bool.or_eq_true, Bool.and_eq_true, decide_eq_true_eq, Char.le_def,
    UInt32.le_iff_toNat_le, Char.reduceVal, UInt32.reduceToNat] at h ⊢
  omega

/-- Digits go on with a literal, whether a backslash stands before them or not. -/
theorem literalLength_drop {quote : Char} {k : Nat} (hq : isHex quote = false)
    (h : ∀ c ∈ cs.take k, isHex c = true) (hk : k ≤ cs.length) :
    literalLength quote false cs = k + literalLength quote false (cs.drop k) := by
  refine reach_drop (fun c hc => ?_) hk
  have hx := h c hc
  have hne {x : Char} (hn : isHex x = false) : c ≠ x := by
    rintro rfl
    rw [hx] at hn
    cases hn
  simp [hne hq, hne (show isHex '\n' = false by decide), hne (show isHex '\\' = false by decide)]

end Text

namespace Glyph

variable {w : List Glyph}

/-- Glyphs with a place show one character each. -/
theorem spelling_eq_map (hw : ∀ g ∈ w, g.Placed) : spelling w = w.map fun g => g.value?.getD default := by
  induction w with
  | nil => rfl
  | cons g w ih =>
    obtain ⟨c, hc⟩ := (hw g List.mem_cons_self).exists_value
    rw [spelling_cons hc, List.map_cons, hc, ih fun g hg => hw g (List.mem_cons_of_mem _ hg), Option.getD_some]

theorem length_spelling (hw : ∀ g ∈ w, g.Placed) : (spelling w).length = w.length := by
  rw [spelling_eq_map hw, List.length_map]

theorem spelling_take (hw : ∀ g ∈ w, g.Placed) (n : Nat) : spelling (w.take n) = (spelling w).take n := by
  rw [spelling_eq_map fun g hg => hw g (List.mem_of_mem_take hg), List.map_take, ← spelling_eq_map hw]

theorem spelling_drop (hw : ∀ g ∈ w, g.Placed) (n : Nat) : spelling (w.drop n) = (spelling w).drop n := by
  rw [spelling_eq_map fun g hg => hw g (List.mem_of_mem_drop hg), List.map_drop, ← spelling_eq_map hw]

theorem getElem?_spelling (hw : ∀ g ∈ w, g.Placed) (n : Nat) : (spelling w)[n]? = w[n]?.bind value? := by
  rw [spelling_eq_map hw, List.getElem?_map]
  cases hg : w[n]? with
  | none => rfl
  | some g =>
    obtain ⟨c, hc⟩ := (hw g (List.mem_of_getElem? hg)).exists_value
    rw [Option.map_some, Option.bind_some, hc, Option.getD_some]

theorem getLast?_spelling (hw : ∀ g ∈ w, g.Placed) : (spelling w).getLast? = w.getLast?.bind value? := by
  rw [List.getLast?_eq_getElem?, List.getLast?_eq_getElem?, length_spelling hw, getElem?_spelling hw]

end Glyph

namespace Munch

theorem pairUp_covers {ds : List Digraph} {w : List Glyph} (h : 2 * ds.length ≤ w.length) :
    Covers (pairUp ds w) (w.take (2 * ds.length)) := by
  induction ds generalizing w with
  | nil => exact .nil
  | cons d ds ih =>
    rw [List.length_cons] at h
    obtain ⟨g, i, w, rfl⟩ := exists_of_two_le_length (show 2 ≤ w.length by omega)
    rw [List.length_cons, List.length_cons] at h
    exact .pair d g i (ih (by omega))

/-- A digraph shows what it stands for. -/
theorem spelling_pairUp {ds : List Digraph} {w : List Glyph} (h : 2 * ds.length ≤ w.length) :
    Glyph.spelling (pairUp ds w) = ds.map Digraph.primary := by
  induction ds generalizing w with
  | nil => rfl
  | cons d ds ih =>
    rw [List.length_cons] at h
    obtain ⟨g, i, w, rfl⟩ := exists_of_two_le_length (show 2 ≤ w.length by omega)
    rw [List.length_cons, List.length_cons] at h
    rw [pairUp, Glyph.spelling_cons (Glyph.value?_merged _ _), ih (by omega), List.map_cons]

/-- The characters that a token of the text `cs` shows. -/
def shown (m : Munch) (cs : List Char) : List Char :=
  if m.pairs = [] then cs.take m.length else m.pairs.map Digraph.primary

theorem spelling_glyphs {m : Munch} (hm : m.Paired) {w : List Glyph} (hw : ∀ g ∈ w, g.Placed)
    (h : m.length ≤ w.length) : Glyph.spelling (m.glyphs w) = m.shown (Glyph.spelling w) := by
  unfold glyphs shown
  split
  · exact Glyph.spelling_take hw _
  · next hp => exact spelling_pairUp ((hm.resolve_left hp).1 ▸ h)

/-- A token shows first the character that it begins with, or what its first digraph stands for. -/
theorem head?_shown {m : Munch} (hm : m.Paired) (hle : 1 ≤ m.length) (c : Char) (cs : List Char) :
    (m.pairs = [] ∧ (m.shown (c :: cs)).head? = some c) ∨
      ∃ d ∈ m.pairs, (m.shown (c :: cs)).head? = some d.primary := by
  obtain ⟨n, hn⟩ := Nat.exists_eq_add_of_le' hle
  unfold shown
  split
  · next hp => exact .inl ⟨hp, by rw [hn]; rfl⟩
  · next hp =>
    rcases (hm.resolve_left hp).2 with ⟨d, hd⟩ | hd
    · exact .inr ⟨d, by rw [hd]; exact List.mem_cons_self, by rw [hd]; rfl⟩
    · exact .inr ⟨.doubleSharp, by rw [hd]; exact List.mem_cons_self, by rw [hd]; rfl⟩

/-- The glyphs of a token stand for all that it takes. -/
theorem covers {m : Munch} (hm : m.Paired) {w : List Glyph} (h : m.length ≤ w.length) :
    Covers (m.glyphs w) (w.take m.length) := by
  unfold glyphs
  split
  · exact .refl _
  · next hp =>
    obtain ⟨hlen, -⟩ := hm.resolve_left hp
    rw [hlen] at h ⊢
    exact pairUp_covers h

end Munch

namespace Replay

open Scanner Glyph

variable {w : List Glyph} {n : Nat} {g : Glyph}

/-! ## Moves -/

/-- The first `n` of the glyphs `w` are in the draft, and the others are to come. -/
def Reached (w : List Glyph) (n : Nat) (s : Scanner Replay) : Prop :=
  n ≤ w.length ∧ At ⟨(w.take n).reverse⟩ (w.drop n) s

/-- The same, and the glyph `g` that comes next has been taken. -/
def InHand (w : List Glyph) (n : Nat) (g : Glyph) (s : Scanner Replay) : Prop :=
  w[n]? = some g ∧ At ⟨(w.take n).reverse⟩ (w.drop (n + 1)) s

theorem keep_at {d : Draft} : Gives (At d w) (keep g) fun _ => At (d.append g) w :=
  ScanM.change_gives fun _ hs => ⟨by rw [hs.1], hs.2⟩

theorem putBack_at {d : Draft} {c : Char} (hc : g.value? = some c) :
    Gives (At d w) (putBack g) fun _ => At d (g :: w) := by
  have hback := putBack_any (g := g) (P := fun e coming => e = d ∧ coming = g :: w)
  refine hback.pre fun s hs => ?_
  dsimp only
  rw [if_neg (by rw [isEof_eq_false_of_value? hc]; decide), hs.2]
  exact ⟨hs.1, rfl⟩

theorem putBack_end {d : Draft} (hg : g.isEof = true) : Gives (At d w) (putBack g) fun _ => At d w := by
  have hback := putBack_any (g := g) (P := fun e coming => e = d ∧ coming = w)
  refine hback.pre fun s hs => ?_
  dsimp only
  rw [if_pos hg]
  exact hs

theorem reverse_take_succ (hg : w[n]? = some g) : (w.take (n + 1)).reverse = g :: (w.take n).reverse := by
  rw [List.take_add_one, hg]
  simp

theorem keep_inHand : Gives (InHand w n g) (keep g) fun _ => Reached w (n + 1) := by
  refine .of_prop fun hg => keep_at.post fun _ s hs => ⟨(List.getElem?_eq_some_iff.1 hg).1, ?_⟩
  rw [reverse_take_succ hg]
  exact hs

theorem putBack_inHand {c : Char} (hc : g.value? = some c) :
    Gives (InHand w n g) (putBack g) fun _ => Reached w n := by
  refine .of_prop fun hg => (putBack_at hc).post fun _ s hs =>
    ⟨Nat.le_of_lt (List.getElem?_eq_some_iff.1 hg).1, ?_⟩
  rw [drop_of_some hg]
  exact hs

theorem undo_reached (hw : ∀ g ∈ w, g.Placed) : Gives (Reached w (n + 1)) undo fun _ => Reached w n := by
  rintro ⟨⟨source, d⟩, log⟩ ⟨hn, rfl, hc⟩
  obtain ⟨g, hg⟩ : ∃ g, w[n]? = some g := ⟨_, List.getElem?_eq_getElem hn⟩
  have hback := giveBack_gives (P := fun d coming => n ≤ w.length ∧ d = ⟨(w.take n).reverse⟩ ∧ coming = w.drop n)
    (hw g (List.mem_of_getElem? hg)).isEof ⟨⟨source, ⟨(w.take n).reverse⟩⟩, log⟩
    ⟨Nat.le_of_succ_le hn, rfl, by rw [hc, drop_of_some hg]⟩
  unfold undo
  simp only [reverse_take_succ hg]
  exact hback

theorem undoMany_reached (hw : ∀ g ∈ w, g.Placed) (m : Nat) :
    Gives (Reached w (n + m)) (undoMany m) fun _ => Reached w n := by
  induction m with
  | zero => exact .pure _ fun _ hs => hs
  | succ m ih => exact (undo_reached hw).bind fun _ => ih

/-! ## Turns -/

section Turns

variable {α : Type} {Q : α → Scanner Replay → Prop} (hw : ∀ g ∈ w, g.Placed)
include hw

/-- Look at the next glyph: there is none, or it shows the next character. -/
theorem next_at {d : Draft} {f : Glyph → ScanM (Scanner Replay) α}
    (hend : (spelling w)[n]? = none → ∀ e, e.isEof = true → Gives (At d (w.drop n)) (f e) Q)
    (hmore : ∀ g c, w[n]? = some g → (spelling w)[n]? = some c → g.value? = some c →
      Gives (At d (w.drop (n + 1))) (f g) Q) :
    Gives (At d (w.drop n)) (next >>= f) Q := by
  cases hg : w[n]? with
  | none =>
    have hnone : (spelling w)[n]? = none := by rw [getElem?_spelling hw, hg]; rfl
    rw [drop_of_none hg] at hend ⊢
    refine Meets.bind (Q := fun e s => e.isEof = true ∧ At d [] s.state) ?_ fun e => .of_prop (hend hnone e)
    rintro ⟨⟨⟨coming, name, finish⟩, d⟩, log⟩ ⟨rfl, rfl⟩
    exact ⟨_, _, rfl, rfl, rfl, rfl⟩
  | some g =>
    obtain ⟨c, hc⟩ := (hw g (List.mem_of_getElem? hg)).exists_value
    have hsome : (spelling w)[n]? = some c := by rw [getElem?_spelling hw, hg, ← hc]; rfl
    rw [drop_of_some hg]
    refine next_cons.bind fun x => .of_prop ?_
    rintro rfl
    exact hmore x c hg hsome hc

theorem next_reached {f : Glyph → ScanM (Scanner Replay) α}
    (hend : (spelling w)[n]? = none → ∀ e, e.isEof = true → Gives (Reached w n) (f e) Q)
    (hmore : ∀ g c, (spelling w)[n]? = some c → g.value? = some c → Gives (InHand w n g) (f g) Q) :
    Gives (Reached w n) (next >>= f) Q := by
  refine .of_prop fun hn => next_at hw (fun hnone e he => ?_) fun g c hg hsome hc => ?_
  · exact (hend hnone e he).pre fun s hs => ⟨hn, hs⟩
  · exact (hmore g c hsome hc).pre fun s hs => ⟨hg, hs⟩

omit hw in
theorem putBack_nothing {e : Glyph} (he : e.isEof = true) :
    Gives (Reached w n) (putBack e) fun _ => Reached w n :=
  .of_prop fun hn => (putBack_end he).post fun _ _ hs => ⟨hn, hs⟩

theorem accept_reached (p : Char → Bool) :
    Gives (Reached w n) (accept p) fun b s => b = (spelling w)[n]?.any p ∧ Reached w (n + b.toNat) s := by
  refine next_reached hw (fun hnone e he => ?_) fun g c hsome hc => ?_
  · rw [value?_eq_none_iff.2 he, hnone]
    exact (putBack_nothing he).bind fun _ => .pure _ fun s hs => ⟨rfl, hs⟩
  · rw [hc, hsome]
    cases hp : p c with
    | false =>
      rw [Option.any_some, hp, if_neg Bool.false_ne_true]
      exact (putBack_inHand hc).bind fun _ => .pure _ fun s hs => ⟨rfl, hs⟩
    | true =>
      rw [Option.any_some, hp, if_pos rfl]
      exact keep_inHand.bind fun _ => .pure _ fun s hs => ⟨rfl, hs⟩

theorem acceptUpTo_reached (p : Char → Bool) (m : Nat) :
    Gives (Reached w n) (acceptUpTo p m) fun k s =>
      k = upTo p m ((spelling w).drop n) ∧ Reached w (n + k) s := by
  induction m generalizing n with
  | zero => exact .pure _ fun s hs => ⟨(upTo_zero p _).symm, hs⟩
  | succ m ih =>
    refine (accept_reached hw p).bind fun b => .of_prop fun hb => ?_
    cases hc : (spelling w)[n]? with
    | none =>
      rw [hc] at hb
      subst hb
      exact .pure _ fun s hs => ⟨by rw [drop_of_none hc]; rfl, hs⟩
    | some c =>
      rw [hc] at hb
      rw [drop_of_some hc, upTo_succ_cons]
      cases hp : p c with
      | false =>
        rw [Option.any_some, hp] at hb
        subst hb
        exact .pure _ fun s hs => ⟨rfl, hs⟩
      | true =>
        rw [Option.any_some, hp] at hb
        subst hb
        refine (ih (n := n + 1)).bind fun k => .pure _ fun s hs => ⟨by rw [hs.1]; rfl, ?_⟩
        rw [Nat.add_comm k, ← Nat.add_assoc]
        exact hs.2

omit hw in
/-- A loop that is to stop at the place `f n` if it is at `n`, and whose turns do not change that. -/
theorem loop_reached {body : Unit → ScanM (Scanner Replay) (Turn Unit Unit)} {paid : ∀ u, Draws measure (body u)}
    (f : Nat → Nat)
    (h : ∀ n, Gives (Reached w n) (body ()) (Turn.Post (fun _ s => ∃ k, f k = f n ∧ Reached w k s) fun _ =>
      Reached w (f n))) :
    Gives (Reached w n) (loop measure body paid ()) fun _ => Reached w (f n) := by
  refine (ScanM.loop_gives (I := fun _ s => ∃ k, f k = f n ∧ Reached w k s) (fun _ => ?_) ()).pre fun s hs =>
    ⟨n, rfl, hs⟩
  rintro s ⟨k, hk, hs⟩
  have hturn := h k s hs
  rw [hk] at hturn
  exact hturn

/-! ## Up to a closing mark -/

theorem acceptWhile_reached (p : Char → Bool) :
    Gives (Reached w n) (acceptWhile p) fun _ => Reached w (n + runLength p ((spelling w).drop n)) := by
  refine loop_reached (fun n => n + runLength p ((spelling w).drop n)) fun n => Meets.map ?_
  refine (accept_reached hw p).post ?_
  rintro b s ⟨hb, hs⟩
  cases hc : (spelling w)[n]? with
  | none =>
    rw [hc] at hb
    subst hb
    rw [runLength, reach_of_none hc]
    exact hs
  | some c =>
    rw [hc, Option.any_some] at hb
    subst hb
    cases hp : p c with
    | false =>
      rw [hp] at hs
      rw [runLength, reach_of_before hc (by rw [hp]; rfl)]
      exact hs
    | true =>
      rw [hp] at hs
      refine ⟨n + 1, ?_, hs⟩
      rw [runLength, reach_of_on hc (by rw [hp]; rfl), Nat.add_right_comm, Nat.add_assoc]

theorem blockComment_reached :
    Gives (Reached w n) blockComment fun _ => Reached w (n + commentLength false ((spelling w).drop n)) := by
  refine loop_reached (fun n => n + commentLength false ((spelling w).drop n)) fun n => ?_
  refine next_reached hw (fun hnone e he => ?_) fun g c hsome hc => ?_
  · rw [if_pos he, commentLength, reach_of_none hnone]
    exact .pure _ fun s hs => hs
  · rw [if_neg (by rw [isEof_eq_false_of_value? hc]; decide)]
    have hon : commentLength false ((spelling w).drop n) = commentLength (c == '*') ((spelling w).drop (n + 1)) + 1 :=
      reach_of_on hsome (by simp)
    refine keep_inHand.bind fun _ => ?_
    by_cases hstar : c = '*'
    · subst hstar
      rw [if_pos (is_iff.2 hc)]
      refine (accept_reached hw _).bind fun b => .of_prop fun hb => ?_
      rw [any_beq] at hb
      by_cases hslash : (spelling w)[n + 1]? = some '/'
      · rw [decide_eq_true hslash] at hb
        subst hb
        refine .pure _ fun s hs => ?_
        have hend : commentLength true ((spelling w).drop (n + 1)) = 1 := reach_of_after hslash (by simp)
        rw [hon, beq_self_eq_true, hend]
        exact hs
      · rw [decide_eq_false hslash] at hb
        subst hb
        refine .pure _ fun s hs => ⟨n + 1, ?_, hs⟩
        rw [hon, beq_self_eq_true, commentLength_true hslash]
        omega
    · rw [if_neg (by rw [is_iff, hc]; simpa using hstar)]
      refine .pure _ fun s hs => ⟨n + 1, ?_, hs⟩
      rw [hon, beq_eq_false_iff_ne.2 hstar]
      omega

theorem headerName_reached (closing : Char) :
    Gives (Reached w n) (headerName closing) fun _ =>
      Reached w (n + headerLength closing ((spelling w).drop n)) := by
  refine loop_reached (fun n => n + headerLength closing ((spelling w).drop n)) fun n => ?_
  refine next_reached hw (fun hnone e he => ?_) fun g c hsome hc => ?_
  · rw [value?_eq_none_iff.2 he, headerLength, reach_of_none hnone]
    exact .pure _ fun s hs => hs
  · rw [hc]
    dsimp only
    split
    · next hn =>
      rw [headerLength, reach_of_before hsome (if_pos hn)]
      exact (putBack_inHand hc).bind fun _ => .pure _ fun s hs => hs
    · next hn =>
      refine keep_inHand.bind fun _ => ?_
      split
      · next hclose =>
        rw [headerLength, reach_of_after hsome (by rw [if_neg hn, if_pos hclose])]
        exact .pure _ fun s hs => hs
      · next hclose =>
        refine .pure _ fun s hs => ⟨n + 1, ?_, hs⟩
        rw [headerLength, reach_of_on hsome (by rw [if_neg hn, if_neg hclose])]
        omega

/-- An escape takes along characters that would not close the literal. -/
theorem escape_reached {quote : Char} (hq : isHex quote = false) :
    Gives (Reached w n) escape fun _ s => ∃ k, k + literalLength quote false ((spelling w).drop k) =
      n + literalLength quote true ((spelling w).drop n) ∧ Reached w k s := by
  refine next_reached hw (fun hnone e he => ?_) fun g c hsome hc => ?_
  · rw [value?_eq_none_iff.2 he]
    refine .pure _ fun s hs => ⟨n, ?_, hs⟩
    rw [literalLength, reach_of_none hnone, reach_of_none hnone]
  · rw [hc]
    dsimp only
    split
    · next hn =>
      refine (putBack_inHand hc).post fun _ s hs => ⟨n, ?_, hs⟩
      rw [literalLength, reach_of_before hsome (if_pos hn), reach_of_before hsome (if_pos hn)]
    · next hn =>
      have hon : literalLength quote true ((spelling w).drop n) =
          literalLength quote false ((spelling w).drop (n + 1)) + 1 :=
        reach_of_on hsome (by simp [hn])
      -- what is taken along after the character itself are digits
      have digits {k : Nat} (hx : ∀ c ∈ ((spelling w).drop (n + 1)).take k, isHex c = true)
          (hk : k ≤ ((spelling w).drop (n + 1)).length) :
          n + 1 + k + literalLength quote false ((spelling w).drop (n + 1 + k)) =
            n + literalLength quote true ((spelling w).drop n) := by
        rw [hon, literalLength_drop hq hx hk, List.drop_drop]
        omega
      have few (p : Char → Bool) (hp : ∀ c, p c = true → isHex c = true) (m : Nat) :
          Gives (Reached w (n + 1)) (discard (acceptUpTo p m)) fun _ s =>
            ∃ k, k + literalLength quote false ((spelling w).drop k) =
              n + literalLength quote true ((spelling w).drop n) ∧ Reached w k s := by
        refine .map ((acceptUpTo_reached hw p m).post fun k s hs => ⟨n + 1 + k, ?_, hs.2⟩)
        rw [hs.1]
        exact digits (fun c hc => hp c (of_mem_upTo hc)) (reach_le_length _ _ _)
      refine keep_inHand.bind fun _ => ?_
      split_ifs
      · exact few _ (fun _ => isHex_of_isOctal) 2
      · refine (acceptWhile_reached hw isHex).post fun _ s hs => ⟨_, ?_, hs⟩
        exact digits (fun c hc => of_mem_runLength hc) (reach_le_length _ _ _)
      · exact few _ (fun _ => id) 4
      · exact few _ (fun _ => id) 8
      · exact .pure _ fun s hs => ⟨n + 1, by rw [hon]; omega, hs⟩

theorem literal_reached {quote : Char} (hq : isHex quote = false) :
    Gives (Reached w n) (literal quote) fun _ =>
      Reached w (n + literalLength quote false ((spelling w).drop n)) := by
  refine loop_reached (fun n => n + literalLength quote false ((spelling w).drop n)) fun n => ?_
  refine next_reached hw (fun hnone e he => ?_) fun g c hsome hc => ?_
  · rw [value?_eq_none_iff.2 he, literalLength, reach_of_none hnone]
    exact .pure _ fun s hs => hs
  · rw [hc]
    dsimp only
    split
    · next hn =>
      rw [literalLength, reach_of_before hsome (if_pos hn)]
      exact (putBack_inHand hc).bind fun _ => .pure _ fun s hs => hs
    · next hn =>
      refine keep_inHand.bind fun _ => ?_
      split
      · next hclose =>
        rw [literalLength, reach_of_after hsome (by rw [if_neg hn, if_pos ⟨hclose, rfl⟩])]
        exact .pure _ fun s hs => hs
      · next hclose =>
        have hon : literalLength quote false ((spelling w).drop n) =
            literalLength quote (c == '\\') ((spelling w).drop (n + 1)) + 1 :=
          reach_of_on hsome (by simp [hn, hclose])
        split
        · next hb =>
          refine (escape_reached hw hq).bind fun _ => .pure _ fun s hs => ?_
          obtain ⟨k, hk, hs⟩ := hs
          refine ⟨k, ?_, hs⟩
          rw [hk, hon, hb, beq_self_eq_true]
          omega
        · next hb =>
          refine .pure _ fun s hs => ⟨n + 1, ?_, hs⟩
          rw [hon, beq_eq_false_iff_ne.2 hb]
          omega

/-! ## Identifiers and numbers -/

theorem universalDigits_reached (m : Nat) :
    Gives (Reached w (n + 1)) (universalDigits m) fun b s =>
      b = (upTo isHex m ((spelling w).drop (n + 1)) == m) ∧ Reached w (if b then n + 1 + m else n) s := by
  refine (acceptUpTo_reached hw isHex m).bind fun k => .of_prop fun hk => ?_
  rw [← hk]
  split
  · next hm =>
    subst hm
    exact .pure _ fun s hs => ⟨(beq_self_eq_true k).symm, hs⟩
  · next hm =>
    have hview : Gives (Reached w (n + 1 + k)) (onSource (ScanM.view Source.location)) fun _ =>
        Reached w (n + (k + 1)) := fun s hs => ⟨_, s, rfl, by rw [Nat.add_comm k, ← Nat.add_assoc]; exact hs⟩
    refine hview.bind fun _ => (ScanM.emit_gives _).bind fun _ => (undoMany_reached hw (k + 1)).bind fun _ => ?_
    exact .pure _ fun s hs => ⟨(beq_eq_false_iff_ne.2 hm).symm, hs⟩

/-- After a backslash a whole universal character name is taken, or nothing. -/
theorem universalTail_reached [Alphabet] :
    Gives (Reached w n) universalTail fun b s => b = startsUniversal ((spelling w).drop n) ∧
      ∃ k, k + identifierLength ((spelling w).drop k) = n + identifierLength ((spelling w).drop n) ∧
        (b = false → k = n) ∧ Reached w k s := by
  have none {s : Scanner Replay} (h : startsUniversal ((spelling w).drop n) = false) (hs : Reached w n s) :
      false = startsUniversal ((spelling w).drop n) ∧
      ∃ k, k + identifierLength ((spelling w).drop k) = n + identifierLength ((spelling w).drop n) ∧
        (false = false → k = n) ∧ Reached w k s := ⟨h.symm, n, rfl, fun _ => rfl, hs⟩
  refine next_reached hw (fun hnone e he => ?_) fun g c hsome hc => ?_
  · rw [if_neg (by simp [is, value?_eq_none_iff.2 he]), if_neg (by simp [is, value?_eq_none_iff.2 he])]
    refine (putBack_nothing he).bind fun _ => .pure _ fun s hs => none ?_ hs
    rw [drop_of_none hnone]
    rfl
  · have letter {m : Nat} (hm : universalDigits? c = some m) :
        Gives (InHand w n g) (keep g >>= fun _ => universalDigits m) fun b s =>
          b = startsUniversal ((spelling w).drop n) ∧
          ∃ k, k + identifierLength ((spelling w).drop k) = n + identifierLength ((spelling w).drop n) ∧
            (b = false → k = n) ∧ Reached w k s := by
      refine keep_inHand.bind fun _ => (universalDigits_reached hw m).post ?_
      rintro b s ⟨hb, hs⟩
      have hstart : startsUniversal ((spelling w).drop n) = b := by
        rw [drop_of_some hsome, startsUniversal, hm, hb]
        rfl
      refine ⟨hstart.symm, _, ?_, fun hf => by rw [hf]; rfl, hs⟩
      cases b with
      | false => rfl
      | true =>
        have hd : upTo isHex m ((spelling w).drop (n + 1)) = m := beq_iff_eq.1 hb.symm
        have hlen := identifierLength_upTo (fun _ => isIdentContinue_of_isHex) m ((spelling w).drop (n + 1))
        rw [hd, List.drop_drop] at hlen
        rw [drop_of_some hsome, identifierLength, isIdentContinue_of_universal hm, Bool.true_or, if_pos rfl, hlen,
          if_pos rfl]
        omega
    split_ifs with hu hU
    · exact letter (by rw [Option.some.inj (hc.symm.trans (is_iff.1 hu))]; rfl)
    · exact letter (by rw [Option.some.inj (hc.symm.trans (is_iff.1 hU))]; rfl)
    · refine (putBack_inHand hc).bind fun _ => .pure _ fun s hs => none ?_ hs
      rw [Bool.eq_false_iff, drop_of_some hsome]
      intro hs
      obtain ⟨_, _, m, hcs, hm, -⟩ := startsUniversal_iff.1 hs
      obtain ⟨rfl, -⟩ := List.cons.inj hcs
      rcases universalDigits?_eq hm with ⟨rfl, -⟩ | ⟨rfl, -⟩
      · exact hu (is_iff.2 hc)
      · exact hU (is_iff.2 hc)

theorem identifier_reached [Alphabet] :
    Gives (Reached w n) Scanner.identifier fun _ => Reached w (n + identifierLength ((spelling w).drop n)) := by
  refine loop_reached (fun n => n + identifierLength ((spelling w).drop n)) fun n => ?_
  refine next_reached hw (fun hnone e he => ?_) fun g c hsome hc => ?_
  · rw [value?_eq_none_iff.2 he, drop_of_none hnone]
    exact .pure _ fun s hs => hs
  · rw [hc]
    dsimp only
    have hstep : identifierLength ((spelling w).drop n) =
        if isIdentContinue c || (c == '\\' && startsUniversal ((spelling w).drop (n + 1))) then
          identifierLength ((spelling w).drop (n + 1)) + 1 else 0 := by
      rw [drop_of_some hsome, identifierLength]
    split_ifs with hi hb
    · rw [hi, Bool.true_or, if_pos rfl] at hstep
      exact keep_inHand.bind fun _ => .pure _ fun s hs => ⟨n + 1, by omega, hs⟩
    · rw [Bool.eq_false_iff.2 hi, Bool.false_or, hb, beq_self_eq_true, Bool.true_and] at hstep
      refine keep_inHand.bind fun _ => (universalTail_reached hw).bind fun b => .of_prop fun hu => ?_
      rw [← hu] at hstep
      cases b with
      | true =>
        rw [if_pos rfl] at hstep
        refine .pure _ fun s hs => ?_
        obtain ⟨k, hk, -, hs⟩ := hs
        exact ⟨k, by omega, hs⟩
      | false =>
        -- the backslash is not part of the identifier, and is given back as well
        rw [if_neg Bool.false_ne_true] at hstep
        rw [hstep]
        refine ((undo_reached hw).pre fun s hs => ?_).bind fun _ => .pure _ fun s hs => hs
        obtain ⟨k, -, hk, hs⟩ := hs
        rw [← hk rfl]
        exact hs
    · rw [Bool.eq_false_iff.2 hi, beq_eq_false_iff_ne.2 hb, Bool.false_and, Bool.or_false,
        if_neg Bool.false_ne_true] at hstep
      rw [hstep]
      exact (putBack_inHand hc).bind fun _ => .pure _ fun s hs => hs

theorem afterExponent_eq {s : Scanner Replay} (h : Reached w n s) :
    afterExponent s = (((spelling w).take n).getLast?.any isExponent) := by
  rw [← spelling_take hw, getLast?_spelling fun g hg => hw g (List.mem_of_mem_take hg), afterExponent, h.2.1,
    Draft.last?, List.head?_reverse]

theorem number_reached [Alphabet] :
    Gives (Reached w n) Scanner.number fun _ =>
      Reached w (n + numberLength (((spelling w).take n).getLast?.any isExponent) ((spelling w).drop n)) := by
  refine loop_reached
    (fun n => n + numberLength (((spelling w).take n).getLast?.any isExponent) ((spelling w).drop n)) fun n => ?_
  have hview : Gives (Reached w n) (ScanM.view afterExponent) fun b s =>
      b = (((spelling w).take n).getLast?.any isExponent) ∧ Reached w n s :=
    fun s hs => ⟨_, s, rfl, afterExponent_eq hw hs, hs⟩
  refine hview.bind fun signed => .of_prop fun hsigned => ?_
  rw [← hsigned]
  refine next_reached hw (fun hnone e he => ?_) fun g c hsome hc => ?_
  · rw [value?_eq_none_iff.2 he, numberLength, reach_of_none hnone]
    exact .pure _ fun s hs => hs
  · rw [hc]
    dsimp only
    split
    · next hp =>
      refine keep_inHand.bind fun _ => .pure _ fun s hs => ⟨n + 1, ?_, hs⟩
      have hlast : ((spelling w).take (n + 1)).getLast?.any isExponent = isExponent c := by
        rw [List.take_add_one, hsome]
        simp
      have hon : numberLength signed ((spelling w).drop n) =
          numberLength (isExponent c) ((spelling w).drop (n + 1)) + 1 := reach_of_on hsome (if_pos hp)
      rw [hlast, hon]
      omega
    · next hp =>
      rw [numberLength, reach_of_before hsome (if_neg hp)]
      exact (putBack_inHand hc).bind fun _ => .pure _ fun s hs => hs

end Turns

/-! ## Digraphs -/

/-- What comes of a token is in the draft, and the rest is to come. -/
def Munched (w : List Glyph) (m : Munch) (s : Scanner Replay) : Prop :=
  s.draft.glyphs = m.glyphs w ∧ s.source.coming = w.drop m.length ∧ m.length ≤ w.length

theorem Reached.munched {s : Scanner Replay} (h : Reached w n s) (k : TokenKind) : Munched w ⟨k, n, []⟩ s := by
  refine ⟨?_, h.2.2, h.1⟩
  rw [h.2.1, Draft.glyphs, List.reverse_reverse]
  rfl

theorem revise_at {f : Draft → Except Violation Draft} {d e : Draft} (h : f d = .ok e) :
    Gives (At d w) (revise f) fun _ => At e w := by
  rintro ⟨⟨source, d⟩, log⟩ ⟨rfl, hc⟩
  refine ⟨(), ⟨⟨source, e⟩, log⟩, ?_, rfl, hc⟩
  unfold revise
  simp only [h]

theorem collapse_at {i : Glyph} (d : Digraph) (hg : g.Placed) (hi : i.Placed) :
    Gives (At ⟨[i, g]⟩ w) (revise (·.collapse d.primary)) fun _ => At ⟨[.merged d.primary [g, i]]⟩ w := by
  have hm := Glyph.merge_eq d.primary (List.cons_ne_nil g [i]) (by simpa using ⟨hg, hi⟩)
  exact revise_at (by simp only [Draft.collapse, hm]; rfl)

theorem collapseTwo_at {i j k : Glyph} (d e : Digraph) (hg : g.Placed) (hi : i.Placed) (hj : j.Placed) (hk : k.Placed) :
    Gives (At ⟨[k, j, i, g]⟩ w) (revise (·.collapseTwo d.primary e.primary)) fun _ =>
      At ⟨[.merged e.primary [j, k], .merged d.primary [g, i]]⟩ w := by
  have hm := Glyph.merge_eq d.primary (List.cons_ne_nil g [i]) (by simpa using ⟨hg, hi⟩)
  have hm' := Glyph.merge_eq e.primary (List.cons_ne_nil j [k]) (by simpa using ⟨hj, hk⟩)
  exact revise_at (by simp only [Draft.collapseTwo, hm, hm']; rfl)

section Placed

variable (hw : ∀ g ∈ w, g.Placed)
include hw

theorem digraph_munched (d : Digraph) (k : TokenKind) :
    Gives (Reached w 2) (revise (·.collapse d.primary)) fun _ => Munched w ⟨k, 2, [d]⟩ := by
  refine .of_prop fun hn => ?_
  obtain ⟨g, i, v, rfl⟩ := exists_of_two_le_length hn
  exact (collapse_at d (hw g (by simp)) (hw i (by simp))).post fun _ s hs => ⟨by rw [hs.1]; rfl, hs.2, hn⟩

theorem sharpDigraph_munched [Alphabet] (k : TokenKind) :
    Gives (Reached w 2) Scanner.sharpDigraph fun _ => Munched w ((Routine.sharpDigraph k).munch (spelling w) 2) := by
  refine .of_prop fun hn => ?_
  obtain ⟨g, i, v, rfl⟩ := exists_of_two_le_length hn
  have hg := hw g (by simp)
  have hi := hw i (by simp)
  have one {s : Scanner Replay} (hs : At ⟨[.merged Digraph.sharp.primary [g, i]]⟩ ((g :: i :: v).drop 2) s) :
      Munched (g :: i :: v) ⟨k, 2, [.sharp]⟩ s := ⟨by rw [hs.1]; rfl, hs.2, hn⟩
  rw [Routine.munch]
  refine next_at hw (fun hnone e he => ?_) fun x c hx hsome hc => ?_
  · rw [if_neg (by simp [is, value?_eq_none_iff.2 he]), hnone, if_neg fun h => Option.some_ne_none _ h.1.symm]
    exact (collapse_at .sharp hg hi).bind fun _ => (putBack_end he).post fun _ _ hs => one hs
  · rw [hsome]
    split
    · next hp =>
      obtain rfl : c = '%' := Option.some.inj (hc.symm.trans (is_iff.1 hp))
      have back : Gives (At ⟨[i, g]⟩ ((g :: i :: v).drop 3))
          (putBack x >>= fun _ => revise (·.collapse Digraph.sharp.primary)) fun _ =>
            Munched (g :: i :: v) ⟨k, 2, [.sharp]⟩ := by
        refine (putBack_at hc).bind fun _ => (collapse_at .sharp hg hi).post fun _ s hs => one ?_
        rw [drop_of_some hx]
        exact hs
      refine next_at hw (fun hnone e he => ?_) fun y c' hy hsome' hc' => ?_
      · rw [if_neg (by simp [is, value?_eq_none_iff.2 he]), hnone, if_neg fun h => Option.some_ne_none _ h.2.symm]
        exact (putBack_end he).bind fun _ => back
      · rw [hsome']
        split
        · next hcol =>
          obtain rfl : c' = ':' := Option.some.inj (hc'.symm.trans (is_iff.1 hcol))
          rw [if_pos ⟨rfl, rfl⟩]
          refine keep_at.bind fun _ => keep_at.bind fun _ => ?_
          refine (collapseTwo_at .doubleSharp .doubleSharp hg hi (hw x (List.mem_of_getElem? hx))
            (hw y (List.mem_of_getElem? hy))).post fun _ s hs => ⟨?_, hs.2, (List.getElem?_eq_some_iff.1 hy).1⟩
          have hv : v = x :: y :: v.drop 2 := (drop_of_some hx).trans (congrArg (x :: ·) (drop_of_some hy))
          rw [hs.1, hv]
          rfl
        · next hcol =>
          rw [if_neg fun h => hcol (is_iff.2 (hc'.trans h.2))]
          refine (putBack_at hc').bind fun _ => ?_
          rw [← drop_of_some hy]
          exact back
    · next hp =>
      rw [if_neg fun h => hp (is_iff.2 (hc.trans h.1))]
      refine (collapse_at .sharp hg hi).bind fun _ => (putBack_at hc).post fun _ s hs => one ?_
      rw [drop_of_some hx]
      exact hs

/-! ## Following a table -/

variable [Alphabet]

theorem Routine.run_munched {r : Routine} {o : Option Rule} (hr : (Rule.routine r).sound n o = true) :
    Gives (Reached w n) r.run fun k s => k = (r.munch (spelling w) n).kind ∧ Munched w (r.munch (spelling w) n) s := by
  have one {m : ScanM (Scanner Replay) Unit} {k : TokenKind} {l : Nat}
      (hm : Gives (Reached w n) m fun _ => Reached w l) :
      Gives (Reached w n) (do m; return k) fun k' s => k' = k ∧ Munched w ⟨k, l, []⟩ s :=
    hm.bind fun _ => .pure _ fun s hs => ⟨rfl, hs.munched k⟩
  cases r with
  | blanks => exact one (acceptWhile_reached hw _)
  | directiveBlanks => exact one (acceptWhile_reached hw _)
  | blockComment => exact one (blockComment_reached hw)
  | lineComment => exact one (acceptWhile_reached hw _)
  | literal quote kind => exact one (literal_reached hw (by simpa [Rule.sound] using hr))
  | headerName closing kind => exact one (headerName_reached hw closing)
  | identifier => exact one (identifier_reached hw)
  | universalName digits =>
    have hn : 2 ≤ n ∧ o = some (.fixed .unknown) := by simpa [Rule.sound] using hr
    obtain ⟨m, rfl⟩ := Nat.exists_eq_add_of_le' hn.1
    refine (universalDigits_reached hw digits).bind fun b => .of_prop fun hb => ?_
    rw [Routine.munch]
    cases b with
    | false =>
      rw [if_neg (beq_eq_false_iff_ne.1 hb.symm)]
      exact .pure _ fun s hs => ⟨rfl, hs.munched _⟩
    | true =>
      have hd : upTo isHex digits ((spelling w).drop (m + 2)) = digits := beq_iff_eq.1 hb.symm
      have hlen := identifierLength_upTo (fun _ => isIdentContinue_of_isHex) digits ((spelling w).drop (m + 2))
      rw [hd, List.drop_drop] at hlen
      rw [if_pos hd, hlen, ← Nat.add_assoc]
      exact (identifier_reached hw).bind fun _ => .pure _ fun s hs => ⟨rfl, hs.munched _⟩
  | number => exact one (number_reached hw)
  | ellipsis =>
    have hn : 2 ≤ n ∧ o = some (.fixed .operator) := by simpa [Rule.sound] using hr
    obtain ⟨m, rfl⟩ := Nat.exists_eq_add_of_le' hn.1
    refine (accept_reached hw _).bind fun b => .of_prop fun hb => ?_
    rw [any_beq] at hb
    rw [Routine.munch]
    by_cases hdot : (spelling w)[m + 2]? = some '.'
    · rw [decide_eq_true hdot] at hb
      subst hb
      rw [if_pos hdot]
      exact .pure _ fun s hs => ⟨rfl, hs.munched _⟩
    · rw [decide_eq_false hdot] at hb
      subst hb
      rw [if_neg hdot]
      exact (undo_reached hw).bind fun _ => .pure _ fun s hs => ⟨rfl, hs.munched _⟩
  | digraph d =>
    obtain rfl : n = 2 := by simpa [Rule.sound] using hr
    exact (digraph_munched hw d _).bind fun _ => .pure _ fun s hs => ⟨rfl, hs⟩
  | sharpDigraph kind =>
    obtain rfl : n = 2 := by simpa [Rule.sound] using hr
    refine (sharpDigraph_munched hw kind).bind fun _ => .pure _ fun s hs => ⟨?_, hs⟩
    rw [Routine.munch]
    split <;> rfl
  | shift c =>
    have test (p : Char → Bool) (n : Nat) : Gives (Reached w n) (discard (accept p)) fun _ =>
        Reached w (n + upTo p 1 ((spelling w).drop n)) := by
      rw [upTo_one]
      exact .map ((accept_reached hw p).post fun b s hs => hs.1 ▸ hs.2)
    rw [Routine.munch, shiftLength, List.drop_drop, ← Nat.add_assoc]
    exact (test _ n).bind fun _ => (test _ _).bind fun _ => .pure _ fun s hs => ⟨rfl, hs.munched _⟩

theorem Rule.run_munched {rule : Rule} {o : Option Rule} (hr : rule.sound n o = true) :
    Gives (Reached w n) rule.run fun k s =>
      k = (rule.munch (spelling w) n).kind ∧ Munched w (rule.munch (spelling w) n) s := by
  cases rule with
  | fixed kind => exact .pure _ fun s hs => ⟨rfl, hs.munched kind⟩
  | routine r => exact Routine.run_munched hw hr

mutual

theorem Action.run_munched : (action : Action) → (n : Nat) → (o : Option Rule) → action.sound n o = true →
    Gives (Reached w n) action.run fun k s =>
      k = (action.munch (spelling w) n).kind ∧ Munched w (action.munch (spelling w) n) s
  | .finish rule, n, o, h => by
    rw [Action.sound] at h
    rw [Action.munch, Action.run]
    exact Rule.run_munched hw h
  | .nested cases other, n, o, h => by
    rw [Action.sound, Bool.and_eq_true] at h
    rw [Action.munch, Action.run]
    refine next_reached hw (fun hnone e he => ?_) fun g c hsome hc => ?_
    · rw [Case.munch_of_none hnone, Case.choose_eq, value?_eq_none_iff.2 he]
      exact (putBack_nothing he).bind fun _ => Rule.run_munched hw h.1
    · exact Case.choose_munched cases other n h.2 h.1 g (hsome.trans hc.symm) hc

theorem Case.choose_munched : (cases : List Case) → (other : Rule) → (n : Nat) →
    Case.allSound (n + 1) other cases = true → other.sound n none = true → (g : Glyph) → {c : Char} →
    (spelling w)[n]? = g.value? → g.value? = some c →
    Gives (InHand w n g) (Case.choose cases other g) fun k s =>
      k = (Case.munch (spelling w) n other cases).kind ∧ Munched w (Case.munch (spelling w) n other cases) s
  | [], other, n, _, ho, g, c, _, hc => by
    rw [Case.munch, Case.choose]
    exact (putBack_inHand hc).bind fun _ => Rule.run_munched hw ho
  | ⟨chars, action⟩ :: cases, other, n, h, ho, g, c, hsome, hc => by
    simp only [Case.allSound, Bool.and_eq_true] at h
    rw [Case.munch, Case.choose, hsome]
    split
    · exact keep_inHand.bind fun _ => Action.run_munched action (n + 1) (some other) h.1.2
    · exact Case.choose_munched cases other n h.2 ho g hsome hc

end

theorem readRest_munched {table : Table} (hs : table.sound = true) (lead : Char) :
    Gives (Reached w 1) (readRest table lead) fun k s =>
      k = (table.munch lead (spelling w)).kind ∧ Munched w (table.munch lead (spelling w)) s := by
  unfold readRest Table.munch
  cases ha : table.lookup lead with
  | some action => exact Action.run_munched hw action 1 none (Table.sound_of_lookup hs ha)
  | none =>
    have hid : (Rule.routine .identifier).sound 1 none = true := rfl
    dsimp only
    split
    · exact Rule.run_munched hw hid
    · exact .pure _ fun s hs => ⟨rfl, hs.munched _⟩

end Placed

/-! ## Tokens -/

/-- **A scanner reads the token that the table makes of the characters**, and leaves what it does not take. -/
theorem readToken_munch [Alphabet] {table : Table} (hs : table.sound = true) {c : Char} (hw : ∀ x ∈ g :: w, x.Placed)
    (hg : g.value? = some c) {m : Munch} (hm : table.munch c (spelling (g :: w)) = m) :
    Gives (Ready (g :: w)) (readToken table) fun o s => o = some ⟨m.glyphs (g :: w), m.kind, []⟩ ∧
      m.length ≤ (g :: w).length ∧ Ready ((g :: w).drop m.length) s := by
  have hpaired : m.Paired := hm ▸ (Table.munch_paired _ c hs).1
  have hle : 1 ≤ m.length := hm ▸ Table.le_munch hs
  have hrest := readRest_munched hw hs c
  rw [hm] at hrest
  refine (readToken_cons (S := fun k gs coming => k = m.kind ∧ gs = m.glyphs (g :: w) ∧
    coming = (g :: w).drop m.length ∧ m.length ≤ (g :: w).length) hg ?_ ?_).post ?_
  · rintro k gs coming ⟨-, rfl, -, hlen⟩
    refine (Munch.covers hpaired hlen).proper hw (List.take_append_drop _ _) ?_
    rw [Ne, List.take_eq_nil_iff]
    rintro (hzero | hnil)
    · omega
    · cases hnil
  · exact hrest.pre fun s h => ⟨Nat.le_add_left _ _, h⟩
  · rintro o s ⟨⟨gs, k, cs⟩, coming, rfl, rfl, hr, rfl, rfl, rfl, hlen⟩
    exact ⟨rfl, hlen, hr⟩

end Replay

end Pretoken
