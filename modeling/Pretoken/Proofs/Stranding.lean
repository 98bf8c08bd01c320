import Pretoken.Proofs.Lexemes
import Pretoken.Token.Reserved

/-!
# Names before a backslash and a line feed

A name that is followed by a backslash and a line feed, as tokens, is stranded. Whether there is one
decides whether two ways to split a text into tokens agree; this module has the part of the argument that
is about lists of tokens.

* `Token.stranded`: somewhere a name is followed by a backslash and a line feed.
* `Lexeme w t w'`: the token `t` covers the glyphs `w` up to `w'`; a backslash before a line feed and a line
  feed stand alone.
* `Outcome w ts us`: the tokens `ts` and `us` are equal if and only if none of `us` is stranded.
* `Outcome.last`, **`Outcome.same`**, **`Outcome.parted`**, **`Outcome.directive`**: one token more.
-/

namespace Pretoken

open Glyph (startsSplice leavesAll)

namespace Token

/-- The first token is a line feed. -/
def startsLine (ts : List Token) : Bool := ts.head?.any fun t => t.value == "\n"

/-- The first two tokens are a backslash and a line feed. -/
def opensSplice : List Token → Bool
  | [] => false
  | t :: ts => t.value == "\\" && startsLine ts

/-- One of the tokens is a name and is followed by a backslash and a line feed. -/
def strandsAmong : List Token → Bool
  | [] => false
  | t :: ts => (t.kind.isName && opensSplice ts) || strandsAmong ts

/-- A name is followed by a backslash and a line feed, among the tokens or among the children of one. -/
def stranded (ts : List Token) : Bool := strandsAmong ts || ts.any fun t => strandsAmong t.children

theorem stranded_cons (t : Token) (ts : List Token) :
    stranded (t :: ts) = ((t.kind.isName && opensSplice ts) || strandsAmong t.children || stranded ts) := by
  simp only [stranded, strandsAmong, List.any_cons]
  ac_rfl

theorem stranded_eq_strandsAmong {ts : List Token} (h : ∀ t ∈ ts, t.children = []) :
    stranded ts = strandsAmong ts := by
  have hno : (ts.any fun t => strandsAmong t.children) = false := by
    rw [List.any_eq_false]
    intro t ht
    rw [h t ht]
    decide
  rw [stranded, hno, Bool.or_false]

end Token

/-! ## One token -/

/-- The first glyph is a line feed. -/
def Glyph.startsLine (w : List Glyph) : Bool := w.head?.any fun g => g.is '\n'

theorem Glyph.startsSplice_cons (g : Glyph) (w : List Glyph) :
    startsSplice (g :: w) = (g.is '\\' && Glyph.startsLine w) := by
  cases w with
  | nil => simp [startsSplice, Glyph.startsLine]
  | cons n w => rfl

/-- The token `t` covers the glyphs `w` up to `w'`. -/
structure Lexeme (w : List Glyph) (t : Token) (w' : List Glyph) : Prop where
  placed : ∀ g ∈ w, g.Placed
  covers : ∃ p, p ≠ [] ∧ w = p ++ w' ∧ Covers t.glyphs p
  backslash : startsSplice w = true → t.glyphs = w.take 1
  lineFeed : Glyph.startsLine w = true → t.glyphs = w.take 1

namespace Lexeme

variable {w w' : List Glyph} {t : Token} {us : List Token}

theorem congr (h : Lexeme w t w') {u : Token} (hu : u.glyphs = t.glyphs) : Lexeme w u w' :=
  ⟨h.placed, hu ▸ h.covers, hu ▸ h.backslash, hu ▸ h.lineFeed⟩

/-- A token that spells a character that no digraph stands for covers one glyph. -/
theorem single (h : Lexeme w t w') {c : Char} (hc : ∀ d : Digraph, d.primary ≠ c)
    (hv : t.value = String.ofList [c]) : ∃ g, w = g :: w' ∧ g.is c := by
  obtain ⟨p, -, rfl, hp⟩ := h.covers
  have hs : Glyph.spelling t.glyphs = [c] := String.ofList_injective hv
  obtain rfl := hp.eq_of_spelling fun d hd => hc d (by simpa [hs] using hd)
  obtain ⟨g, gs, hgs, hg, hnil⟩ := Glyph.exists_of_spelling (fun x hx => h.placed x (by simp [hx])) hs
  have : gs = [] := by
    cases gs with
    | nil => rfl
    | cons x gs =>
      obtain ⟨y, hy⟩ := (h.placed x (by simp [hgs])).exists_value
      rw [Glyph.spelling_cons hy] at hnil
      cases hnil
  subst this
  exact ⟨g, by rw [hgs]; rfl, Glyph.is_iff.2 hg⟩

theorem value_of_take {c : Char} {g : Glyph} (ht : t.glyphs = (g :: w).take 1) (hg : g.is c) :
    t.value = String.ofList [c] := by
  rw [Token.value, ht, List.take_succ_cons, List.take_zero, Glyph.spelling_cons (Glyph.is_iff.1 hg)]
  rfl

theorem startsLine_eq (h : Lexeme w t w') : Token.startsLine (t :: us) = Glyph.startsLine w := by
  rw [Bool.eq_iff_iff]
  simp only [Token.startsLine, List.head?_cons, Option.any_some, beq_iff_eq]
  constructor
  · intro hv
    obtain ⟨g, rfl, hg⟩ := h.single (c := '\n') (fun d => by cases d <;> decide) hv
    exact hg
  · intro hw
    match w, h, hw with
    | g :: w, h, hw => exact value_of_take (h.lineFeed hw) hw

/-- The tokens begin with a backslash and a line feed if and only if the glyphs do. -/
theorem opensSplice_eq (h : Lexeme w t w') (hline : Token.startsLine us = Glyph.startsLine w') :
    Token.opensSplice (t :: us) = startsSplice w := by
  rw [Bool.eq_iff_iff, Token.opensSplice, Bool.and_eq_true, beq_iff_eq, hline]
  have hone (hv : t.value = "\\") : ∃ g, w = g :: w' ∧ g.is '\\' :=
    h.single (fun d => by cases d <;> decide) hv
  constructor
  · rintro ⟨hv, hl⟩
    obtain ⟨g, rfl, hg⟩ := hone hv
    rw [Glyph.startsSplice_cons, hg, hl]
    rfl
  · intro hw
    cases w with
    | nil => cases hw
    | cons g w =>
      have hg := hw
      rw [Glyph.startsSplice_cons, Bool.and_eq_true] at hg
      have hv : t.value = "\\" := value_of_take (h.backslash hw) hg.1
      obtain ⟨_, heq, -⟩ := hone hv
      cases heq
      exact ⟨hv, hg.2⟩

/-- A token is not lighter than the first glyph that it covers. -/
theorem exists_head (h : Lexeme w t w') :
    ∃ g ∈ w.head?, g.leaves.length ≤ (leavesAll t.glyphs).length := by
  obtain ⟨p, hne, rfl, hp⟩ := h.covers
  obtain ⟨g, p, rfl⟩ := List.exists_cons_of_ne_nil hne
  refine ⟨g, rfl, ?_⟩
  rw [hp.leavesAll_eq, leavesAll, List.length_append]
  exact Nat.le_add_right _ _

end Lexeme

/-- The first of the tokens, if there is one, is not lighter than the first of the glyphs. -/
def Outweighs (ts : List Token) (w : List Glyph) : Prop :=
  ∀ t ∈ ts.head?, ∃ g ∈ w.head?, g.leaves.length ≤ (leavesAll t.glyphs).length

/-- Tokens that begin with a lighter glyph are others. -/
theorem Outweighs.ne {ts us : List Token} {w : List Glyph} {u : Token} {b : Glyph} (h : Outweighs ts w)
    (hu : u.glyphs = [b]) (hb : ∀ g ∈ w.head?, b.leaves.length < g.leaves.length) : ts ≠ u :: us := by
  rintro rfl
  obtain ⟨g, hg, hle⟩ := h u rfl
  have hlt := hb g hg
  rw [hu, leavesAll, leavesAll, List.append_nil] at hle
  omega

/-! ## All tokens -/

/-- What comes of the glyphs `w` in two ways: the tokens `ts` and `us`, which are equal if and only if none
of `us` is stranded. Whether `us` begin with a line feed, or with a backslash and a line feed, is seen from
the glyphs. -/
structure Outcome (w : List Glyph) (ts us : List Token) : Prop where
  startsLine_eq : Token.startsLine us = Glyph.startsLine w
  opensSplice_eq : Token.opensSplice us = startsSplice w
  eq_iff : ts = us ↔ Token.stranded us = false

namespace Outcome

variable {w w' : List Glyph} {t u : Token} {ts us : List Token}

theorem nil : Outcome [] [] [] := ⟨rfl, rfl, by decide⟩

theorem last (hl : Lexeme w t w') (hs : startsSplice w = false) (hc : t.children = []) :
    Outcome w [t] [t] := by
  refine ⟨hl.startsLine_eq, ?_, ?_⟩
  · rw [hs, Token.opensSplice]
    exact Bool.and_false _
  · simp [Token.stranded, Token.strandsAmong, Token.opensSplice, hc]

/-- The same token on both sides, after which both go on in the same way. -/
theorem same (hl : Lexeme w t w') (h : Outcome w' ts us)
    (hname : t.kind.isName = true → startsSplice w' = false) (hc : Token.strandsAmong t.children = false) :
    Outcome w (t :: ts) (t :: us) := by
  refine ⟨hl.startsLine_eq, hl.opensSplice_eq h.startsLine_eq, ?_⟩
  have hno : (t.kind.isName && Token.opensSplice us) = false := by
    rw [h.opensSplice_eq]
    cases hk : t.kind.isName with
    | false => rfl
    | true => rw [hname hk]; rfl
  rw [List.cons.injEq, Token.stranded_cons, hno, hc, Bool.false_or, Bool.false_or, ← h.eq_iff]
  simp

/-- A name before a backslash and a line feed, after which the two ways part. -/
theorem parted {b n : Glyph} {v : Token} (hl : Lexeme w t (b :: n :: w')) (hname : t.kind.isName = true)
    (hb : b.is '\\') (hn : n.is '\n') (hu : u.glyphs = [b]) (hv : v.glyphs = [n]) (hne : ts ≠ u :: v :: us) :
    Outcome w (t :: ts) (t :: u :: v :: us) := by
  have hub : u.value = "\\" := Lexeme.value_of_take (w := []) hu hb
  have hvn : v.value = "\n" := Lexeme.value_of_take (w := []) hv hn
  have hline : Token.startsLine (u :: v :: us) = Glyph.startsLine (b :: n :: w') := by
    simp [Token.startsLine, Glyph.startsLine, hub, Glyph.is, Glyph.is_iff.1 hb]
  refine ⟨hl.startsLine_eq, hl.opensSplice_eq hline, ?_⟩
  have hopens : Token.opensSplice (u :: v :: us) = true := by
    simp [Token.opensSplice, Token.startsLine, hub, hvn]
  rw [Token.stranded_cons, hname, hopens]
  simp [hne]

/-- A directive, within which the two ways may part. -/
theorem directive {cs ds : List Token} (hl : Lexeme w t w') (hv : t.value = "#") (hk : t.kind.isName = false)
    (hcs : cs = ds ↔ Token.strandsAmong ds = false) (h : cs = ds → (ts = us ↔ Token.stranded us = false)) :
    Outcome w (t.withChildren cs :: ts) (t.withChildren ds :: us) := by
  have hl' : Lexeme w (t.withChildren ds) w' := hl.congr rfl
  have hv' : (t.withChildren ds).value = "#" := hv
  refine ⟨hl'.startsLine_eq, ?_, ?_⟩
  · have hw : startsSplice w = false := by
      rw [Bool.eq_false_iff]
      intro hw
      match w, hl, hw with
      | g :: w, hl, hw =>
        have hg := hw
        rw [Glyph.startsSplice_cons, Bool.and_eq_true] at hg
        rw [Lexeme.value_of_take (hl.backslash hw) hg.1] at hv
        exact absurd hv (by decide)
    rw [Token.opensSplice, hv', hw]
    rfl
  · have hk' : (t.withChildren ds).kind.isName = false := hk
    have hc' : (t.withChildren ds).children = ds := rfl
    have heq : t.withChildren cs = t.withChildren ds ↔ cs = ds := by simp [Token.withChildren]
    rw [Token.stranded_cons, hk', hc', Bool.false_and, Bool.false_or, Bool.or_eq_false_iff, List.cons.injEq,
      heq, ← hcs]
    exact and_congr_right h

end Outcome

end Pretoken
