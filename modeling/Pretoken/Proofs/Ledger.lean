import Pretoken.Proofs.TokenSteps

/-!
# Text owed and text paid

A source owes the text that it has not yet given. Each token pays a piece of it, and so do the children
of a directive; at the end of the tokens what is still owed lies behind the end.

* `Ledger`: what a source owes, and that reading a token keeps the books.
* `Ledger.lineTurn_gives`, **`Ledger.readDirective_gives`**: the books of a directive.
* `Ledger.nextToken_gives`, **`Ledger.tokens_gives`**: the books of a lexer.
-/

namespace Pretoken

open ScanM (Gives)
open Glyph (leavesAll)

theorem Token.leaves_eq (t : Token) :
    t.leaves = Glyph.leavesAll t.glyphs ++ Token.leavesAll t.children := by
  cases t
  rfl

theorem Token.leaves_of_children {t : Token} (h : t.children = []) :
    t.leaves = Glyph.leavesAll t.glyphs := by
  rw [t.leaves_eq, h, Token.leavesAll, List.append_nil]

/-- What came of reading a token where `ls` was owed: a token pays some of it. -/
def Settles {σ : Type} (Owes Ended : List Glyph → σ → Prop) (ls : List Glyph) : Option Token → σ → Prop
  | none, s => Ended ls s
  | some t, s => t.children = [] ∧ ∃ rest, Owes rest s ∧ leavesAll t.glyphs ++ rest = ls

variable [Alphabet]

/-- What a source owes, and that reading a token keeps the books. -/
structure Ledger (σ : Type) [Source σ] where
  /-- The source is to give tokens that go back to these plain glyphs. -/
  Owes : List Glyph → σ → Prop
  /-- The source has ended, and these plain glyphs lie behind the end. -/
  Ended : List Glyph → σ → Prop
  owes_of_ended : ∀ {ls s}, Ended ls s → Owes ls s
  readToken : ∀ {table : Table}, table.fits = true → ∀ ls,
    Gives (fun s : Scanner σ => s.draft = .empty ∧ Owes ls s.source) (Scanner.readToken table) fun o s =>
      s.draft = .empty ∧ Settles Owes Ended ls o s.source

namespace Ledger

variable {σ : Type} [Source σ] (L : Ledger σ)

/-! ## Directives -/

/-- The line begins with the tokens `pre`; its other tokens and what is owed are the text `ls`. -/
def LineOwes (pre : List Token) (ls : List Glyph) (l : DirectiveLine σ) : Prop :=
  l.scanner.draft = .empty ∧ ∃ cs rest, l.children = pre ++ cs ∧ L.Owes rest l.scanner.source ∧
    Token.leavesAll cs ++ rest = ls

variable (pre : List Token) (ls : List Glyph) (reserved : List String)

theorem lineTurn_gives (place : LinePlace) :
    Gives (L.LineOwes pre ls) (DirectiveLine.lineTurn reserved place)
      (Turn.Post (fun _ => L.LineOwes pre ls) fun _ => L.LineOwes pre ls) := by
  rintro s ⟨hd, cs, owed, hcs, ho, rfl⟩
  obtain ⟨o, u, hu, hd', hq⟩ := L.readToken place.fits owed ⟨s.state.scanner, s.log⟩ ⟨hd, ho⟩
  cases o with
  | none => exact ⟨_, _, DirectiveLine.lineTurn_none hu, hd', cs, owed, hcs, L.owes_of_ended hq, rfl⟩
  | some t =>
    obtain ⟨hc, rest, hr, rfl⟩ := hq
    refine ⟨_, _, DirectiveLine.lineTurn_some hu, ?_⟩
    have kept : L.LineOwes pre (Token.leavesAll cs ++ (leavesAll t.glyphs ++ rest))
        ⟨u.state, place.mark (t.reserve reserved) :: s.state.newestFirst⟩ := by
      refine ⟨hd', cs ++ [place.mark (t.reserve reserved)], rest, ?_, hr, ?_⟩
      · rw [← List.append_assoc, ← hcs]
        exact List.reverse_cons
      · simp [Token.leavesAll, Token.leaves_of_children, hc]
    cases place.next (t.reserve reserved) <;> exact kept

theorem readFrom_gives (place : LinePlace) :
    Gives (L.LineOwes pre ls) (DirectiveLine.readFrom reserved place) fun _ => L.LineOwes pre ls :=
  ScanM.loop_gives (L.lineTurn_gives pre ls reserved) place

/-- **The children of a directive pay for their text.** -/
theorem readDirective_gives :
    Gives (fun s : Scanner σ => s.draft = .empty ∧ L.Owes ls s.source) (Scanner.readDirective reserved)
      fun cs s => ∃ rest, L.Owes rest s.source ∧ Token.leavesAll cs ++ rest = ls := by
  rintro s ⟨hd, ho⟩
  obtain ⟨_, l, hl, -, cs, rest, hcs, hr, hls⟩ := L.readFrom_gives [] ls reserved .name
    ⟨.ofScanner s.state, s.log⟩ ⟨hd, [], ls, rfl, ho, rfl⟩
  refine ⟨_, _, Scanner.readDirective_ok hl, rest, hr, ?_⟩
  rw [hcs]
  exact hls

/-! ## Lexers -/

/-- What came of reading a token where `ls` was owed. -/
def Paid (ls : List Glyph) : Option Token → Lexer σ → Prop
  | none, l => L.Ended ls l.source
  | some t, l => ∃ rest, L.Owes rest l.source ∧ t.leaves ++ rest = ls

theorem nextToken_gives (ls : List Glyph) :
    Gives (fun l => L.Owes ls l.source) Lexer.nextToken (L.Paid ls) := by
  intro l hl
  obtain ⟨o, u, hu, -, hq⟩ := L.readToken Table.fits_text ls ⟨.ofSource l.state.source, l.log⟩ ⟨rfl, hl⟩
  cases o with
  | none => exact ⟨none, _, Lexer.nextToken_none hu, hq⟩
  | some t =>
    obtain ⟨hc, rest, hr, rfl⟩ := hq
    by_cases hopens : Lexer.Opens t l.state
    · -- the children of a directive pay some of the rest
      obtain ⟨cs, v, hv, rest', hr', rfl⟩ := L.readDirective_gives rest l.state.reserved
        ⟨.ofSource u.state.source, u.log⟩ ⟨rfl, hr⟩
      refine ⟨_, _, Lexer.nextToken_directive hu hopens hv, rest', hr', ?_⟩
      simp [Token.leaves_eq, Token.withChildren, Token.withKind]
    · refine ⟨_, _, Lexer.nextToken_plain hu hopens, rest, hr, ?_⟩
      rw [Token.leaves_of_children (by simpa using hc), Token.glyphs_reserve]

/-- Reading a token does not change which words are reserved. -/
theorem reserved_of_nextToken {ls : List Glyph} {l l' : Logged (Lexer σ)} {o : Option Token}
    (h : L.Owes ls l.state.source) (hn : Lexer.nextToken l = .ok o l') :
    l'.state.reserved = l.state.reserved := by
  obtain ⟨o, u, hu, -, hq⟩ := L.readToken Table.fits_text ls ⟨.ofSource l.state.source, l.log⟩ ⟨rfl, h⟩
  cases o with
  | none =>
    rw [Lexer.nextToken_none hu] at hn
    cases hn
    rfl
  | some t =>
    obtain ⟨-, rest, hr, -⟩ := hq
    by_cases hopens : Lexer.Opens t l.state
    · obtain ⟨cs, v, hv, -⟩ := L.readDirective_gives rest l.state.reserved
        ⟨.ofSource u.state.source, u.log⟩ ⟨rfl, hr⟩
      rw [Lexer.nextToken_directive hu hopens hv] at hn
      cases hn
      rfl
    · rw [Lexer.nextToken_plain hu hopens] at hn
      cases hn
      rfl

/-- The tokens so far pay some of what is owed. -/
theorem owes_of_yields {ts : List Token} {ls : List Glyph} {l l' : Logged (Lexer σ)}
    (h : L.Owes ls l.state.source) (hy : Lexer.Yields ts l l') :
    (∃ rest, L.Owes rest l'.state.source ∧ Token.leavesAll ts ++ rest = ls) ∧
      l'.state.reserved = l.state.reserved := by
  induction ts generalizing ls l with
  | nil =>
    obtain rfl : l = l' := hy
    exact ⟨⟨ls, h, rfl⟩, rfl⟩
  | cons t ts ih =>
    obtain ⟨l₁, h₁, hy⟩ := hy
    obtain ⟨_, _, heq, hpaid⟩ := L.nextToken_gives ls l h
    rw [h₁] at heq
    cases heq
    obtain ⟨rest, hrest, rfl⟩ := hpaid
    obtain ⟨⟨rest', hrest', rfl⟩, hreserved⟩ := ih hrest hy
    refine ⟨⟨rest', hrest', ?_⟩, hreserved.trans (L.reserved_of_nextToken h h₁)⟩
    rw [Token.leavesAll, List.append_assoc]

/-- **The tokens pay all that is owed**, except for what lies behind the end. -/
theorem tokens_gives (ls : List Glyph) :
    Gives (fun l => L.Owes ls l.source) Lexer.tokens fun r l =>
      r.2 = .ok () ∧ ∃ rest, L.Ended rest l.source ∧ Token.leavesAll r.1 ++ rest = ls := by
  -- the tokens so far and what is still owed make up the text
  have hturn (ts : List Token) :
      Meets (fun l => ∃ rest, L.Owes rest l.state.source ∧ Token.leavesAll ts ++ rest = ls)
        (Turn.ofOption <$> Lexer.nextToken : ScanM (Lexer σ) _) (Turn.Post
          (fun t l => ∃ rest, L.Owes rest l.state.source ∧ Token.leavesAll (ts ++ [t]) ++ rest = ls)
          fun _ l => ∃ rest, L.Ended rest l.state.source ∧ Token.leavesAll ts ++ rest = ls) := by
    rintro s ⟨owed, ho, rfl⟩
    refine Meets.map ((L.nextToken_gives owed).post ?_) s ho
    rintro (_ | t) l hl
    · exact ⟨owed, hl, rfl⟩
    · obtain ⟨rest, hr, rfl⟩ := hl
      exact ⟨rest, hr, by simp [Token.leavesAll]⟩
  intro l hl
  obtain ⟨r, l', hl', _, hr, hq⟩ := Meets.gatherUntil hturn l ⟨ls, hl, rfl⟩
  exact ⟨r, l', hl', hr, hq⟩

variable {L}

/-- A lexer over a source that keeps its books reads all tokens. -/
theorem tokens_ok {l : Logged (Lexer σ)} {ls : List Glyph} (h : L.Owes ls l.state.source) :
    ∃ ts l', Lexer.tokens l = .ok (ts, .ok ()) l' := by
  obtain ⟨⟨ts, _⟩, l', hl', rfl, -⟩ := L.tokens_gives ls l h
  exact ⟨ts, l', hl'⟩

theorem tokens_ok_after {l l' : Logged (Lexer σ)} {t : Token} {ls : List Glyph}
    (h : L.Owes ls l.state.source) (ht : Lexer.nextToken l = .ok (some t) l') :
    ∃ ts l'', Lexer.tokens l' = .ok (ts, .ok ()) l'' := by
  obtain ⟨_, _, heq, hp⟩ := L.nextToken_gives ls l h
  rw [ht] at heq
  cases heq
  obtain ⟨rest, hrest, -⟩ := hp
  exact tokens_ok hrest

end Ledger

end Pretoken
