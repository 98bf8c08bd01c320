import Pretoken.Proofs.Lexemes
import Pretoken.Proofs.Lookahead

/-!
# Tokens that close a line

A line feed, and a directive up to its own line feed, is read without a look at what comes after it.

* `Token.closesLine`: the token is a line feed, or a directive that came to the end of its line.
* `Taped.Closed`: the text of the token ends in a line feed, and the end of the tape has not been seen.
* `Taped.readToken_closed`, `Taped.readDirective_closed`: a line feed, and the end of a directive.
* **`Lexer.nextToken_closed`**: whatever closes a line.
-/

namespace Pretoken

open ScanM (Gives)

/-! ## Line feeds -/

theorem Token.leaves_of_glyphs {t : Token} {g : Glyph} (hg : t.glyphs = [g]) (hc : t.children = []) :
    t.leaves = g.leaves := by
  rw [t.leaves_of_children hc, hg, Glyph.leavesAll, Glyph.leavesAll, List.append_nil]

variable [Alphabet]

namespace Taped

variable {stop : Location} {table : Table}

/-- The text of the token ends in a line feed, and the end of the tape has not been seen. -/
def Closed (t : Token) (s : Taped) : Prop :=
  s.below.below.spent = false ∧ Glyph.EndsLine t.leaves

/-- A token that begins with a line feed is the line feed. Nothing is read after it. -/
theorem closed_of_lineFeed {k : TokenKind} (ht : table.Breaks k) {s s' : Logged (Scanner Taped)}
    (hd : s.state.draft = .empty) (hs : Calm s.state.source) {t : Token}
    (h : Scanner.readToken table s = .ok (some t) s') {g : Glyph} {u : Logged (Scanner Taped)}
    (hg : Scanner.next s = .ok g u) (hn : g.is '\n' = true) : Closed t s'.state.source := by
  obtain ⟨htook, hdraft⟩ := next_took hs hg
  obtain ⟨g', u', lead, v, hg', hv, hc, hglyphs, hsource, hrest⟩ := Scanner.exists_of_readToken_some h
  rw [hg] at hg'
  cases hg'
  rw [Glyph.is_iff.1 hn] at hv
  cases hv
  rw [Scanner.readRest, ht.lineFeed] at hrest
  cases hrest
  have hone : t.glyphs = [g] := by
    rw [hglyphs, hdraft, hd]
    rfl
  refine ⟨?_, ?_⟩
  · rw [hsource, Bool.eq_false_iff]
    intro hspent
    exact absurd (hn.symm.trans (htook.quiet hspent)) (by decide)
  · rw [Token.leaves_of_glyphs hone hc]
    exact (htook.sound (Glyph.isEof_eq_false_of_value? (Glyph.is_iff.1 hn))).lineFeed hn

/-- A token that is a line feed begins with the line feed that was to come. -/
theorem exists_lineFeed (hf : table.fits = true) {ls : List Glyph} {s s' : Logged (Scanner Taped)}
    (hd : s.state.draft = .empty) (hs : Owes stop ls s.state.source) {t : Token}
    (h : Scanner.readToken table s = .ok (some t) s') (hv : t.value = "\n") :
    ∃ g u, Scanner.next s = .ok g u ∧ g.is '\n' = true := by
  obtain ⟨f, ⟨w, e, hshows, -⟩, hrel, -⟩ := hs
  have hstep : (exact stop).scanner.Rel ⟨f, .empty⟩ s.state := ⟨hrel, by rw [hd]; rfl⟩
  -- the file beside the tape reads the same token, which covers the front of what was to come
  obtain ⟨o, u, r, hu, -, -, hreads, -⟩ := Phases.readToken_shadow hf (s := ⟨⟨f, .empty⟩, []⟩)
    (r := ⟨⟨.ofGlyphs w none, .empty⟩, []⟩) ⟨rfl, hshows⟩ ⟨rfl, rfl⟩
  have htoken := ((exact stop).readToken table).agree (fun t => exact_not_lost stop t.source)
    (s := ⟨⟨f, .empty⟩, []⟩) hstep
  rw [hu, h] at htoken
  obtain rfl : o = some t := htoken.1.trans (congrArg some t.down_zero)
  obtain ⟨-, -, p, rest, -, rfl, hcovers, -⟩ := hreads
  have hspelling : Glyph.spelling t.glyphs = ['\n'] := String.ofList_injective hv
  obtain rfl : t.glyphs = p := by
    refine hcovers.eq_of_spelling fun d => ?_
    rw [hspelling]
    cases d <;> decide
  obtain ⟨g, gs, hgs, hg, -⟩ := Glyph.exists_of_spelling
    (fun q hq => hshows.placed q (List.mem_append_left rest hq)) hspelling
  rw [hgs, List.cons_append] at hshows
  obtain ⟨g, f', hf', rfl, -⟩ := Phases.take_cons ⟨f, []⟩ hshows
  have hfirst := Scanner.next_ok (s := ⟨⟨f, .empty⟩, []⟩) hf'
  have hnext := (exact stop).next.agree (fun t => exact_not_lost stop t.source)
    (s := ⟨⟨f, .empty⟩, []⟩) hstep
  rw [hfirst] at hnext
  match hn : Scanner.next s, hnext with
  | .ok g' v, hnext =>
    refine ⟨g', v, rfl, ?_⟩
    rw [← show g = g' from hnext.1.trans g'.down_zero]
    exact Glyph.is_iff.2 hg

/-- **A token that is a line feed closes a line.** -/
theorem readToken_closed {k : TokenKind} (ht : table.Breaks k) {ls : List Glyph}
    {s s' : Logged (Scanner Taped)} (hd : s.state.draft = .empty) (hs : Owes stop ls s.state.source)
    {t : Token} (h : Scanner.readToken table s = .ok (some t) s') (hv : t.value = "\n") :
    Closed t s'.state.source := by
  obtain ⟨g, u, hg, hn⟩ := exists_lineFeed ht.fits hd hs h hv
  obtain ⟨f, -, -, hcalm⟩ := hs
  exact closed_of_lineFeed ht hd hcalm h hg hn

end Taped

/-! ## Directives -/

namespace Taped

variable {stop : Location} {ls : List Glyph}

/-- The token that ends a directive is a line feed. -/
theorem closed_of_directiveEnd {place : LinePlace} {s s' : Logged (Scanner Taped)}
    (hd : s.state.draft = .empty) (hs : Calm s.state.source) {t : Token}
    (h : Scanner.readToken place.table s = .ok (some t) s') (hk : t.kind = .directiveEnd) :
    Closed t s'.state.source := by
  obtain ⟨g, u, lead, v, hg, hv, -, -, -, hrest⟩ := Scanner.exists_of_readToken_some h
  -- the table gives this kind for no other lead, and without the table it is never given
  have hlead : lead = '\n' := by
    rw [Scanner.readRest] at hrest
    cases ha : place.table.lookup lead with
    | some action =>
      rw [ha] at hrest
      refine LinePlace.eq_of_directiveEnd ha ?_
      rw [← hk]
      exact action.run_returns _ _ _ hrest
    | none =>
      rw [ha] at hrest
      have hother : t.kind = .identifier ∨ t.kind = .unknown := by
        by_cases hi : isIdentStart lead
        · rw [if_pos hi] at hrest
          exact .inl (List.mem_singleton.1 (Routine.identifier.run_returns _ _ _ hrest))
        · rw [if_neg hi] at hrest
          exact .inr (EStateM.Result.ok.inj hrest).1.symm
      rw [hk] at hother
      exact absurd hother (by decide)
  rw [hlead] at hv
  exact closed_of_lineFeed place.breaks hd hs h hg (Glyph.is_iff.2 hv)

/-- A line that has not come to its end. -/
def Underway (stop : Location) (l : DirectiveLine Taped) : Prop :=
  l.scanner.draft = .empty ∧ (∃ ls, Owes stop ls l.scanner.source) ∧
    ∀ t ∈ l.newestFirst.head?, t.kind ≠ .directiveEnd

/-- A line of which no more is read. If it came to its end, that closed it. -/
def Finished (l : DirectiveLine Taped) : Prop :=
  ∀ t ∈ l.newestFirst.head?, t.kind = .directiveEnd → Closed t l.scanner.source

theorem lineTurn_closed (reserved : List String) (place : LinePlace) :
    Gives (Underway stop) (DirectiveLine.lineTurn reserved place)
      (Turn.Post (fun _ => Underway stop) fun _ => Finished) := by
  rintro s ⟨hd, ⟨ls, hls⟩, hopen⟩
  obtain ⟨o, u, hu, hd', hq⟩ := (ledger stop).readToken place.fits ls ⟨s.state.scanner, s.log⟩ ⟨hd, hls⟩
  cases o with
  | none => exact ⟨_, _, DirectiveLine.lineTurn_none hu, fun t ht hk => absurd hk (hopen t ht)⟩
  | some t =>
    obtain ⟨hc, rest, hrest, -⟩ := hq
    obtain ⟨f, -, -, hcalm⟩ := hls
    refine ⟨_, _, DirectiveLine.lineTurn_some hu, ?_⟩
    cases hnext : place.next (t.reserve reserved) with
    | again next =>
      refine ⟨hd', ⟨rest, hrest⟩, ?_⟩
      rintro _ ⟨⟩
      rw [Ne, LinePlace.kind_mark_eq_directiveEnd]
      exact LinePlace.kind_of_next_eq_again hnext
    | done _ =>
      have hk := Token.kind_reserve_eq_directiveEnd.1 (LinePlace.kind_of_next_eq_done hnext)
      have hclosed := closed_of_directiveEnd hd hcalm hu hk
      rintro _ ⟨⟩ -
      refine ⟨hclosed.1, ?_⟩
      rw [Token.leaves_of_children (by simpa using hc), LinePlace.glyphs_mark, Token.glyphs_reserve,
        ← Token.leaves_of_children hc]
      exact hclosed.2

theorem readFrom_closed (reserved : List String) (place : LinePlace) :
    Gives (Underway stop) (DirectiveLine.readFrom reserved place) fun _ => Finished :=
  ScanM.loop_gives (lineTurn_closed reserved) place

/-- **A directive that comes to the end of its line closes it.** -/
theorem readDirective_closed (reserved : List String) :
    Gives (fun s : Scanner Taped => s.draft = .empty ∧ ∃ ls, Owes stop ls s.source)
      (Scanner.readDirective reserved) fun cs s => ∀ t ∈ cs.getLast?, t.kind = .directiveEnd →
        Closed t s.source := by
  rintro s ⟨hd, hs⟩
  obtain ⟨_, l, hl, hend⟩ := readFrom_closed reserved .name ⟨.ofScanner s.state, s.log⟩ ⟨hd, hs, nofun⟩
  refine ⟨_, _, Scanner.readDirective_ok hl, fun t ht => hend t ?_⟩
  rwa [DirectiveLine.children, List.getLast?_reverse] at ht

end Taped

/-! ## Lexers -/

/-- The token is the last of a line: a line feed, or a directive up to and including its own. -/
def Token.closesLine (t : Token) : Bool :=
  (t.kind == .delimiter && t.value == "\n") ||
    (t.kind == .directive && t.children.getLast?.any fun c => c.kind == .directiveEnd)

theorem Scanner.isTextual_of_readToken {σ : Type} [Source σ] {s s' : Logged (Scanner σ)} {t : Token}
    (h : readToken .text s = .ok (some t) s') : t.kind.isTextual = true := by
  obtain ⟨g, u, lead, v, -, -, -, -, -, hrest⟩ := exists_of_readToken_some h
  rcases readRest_returns .text lead _ _ _ hrest with hk | hk | hk
  · exact Table.kinds_text t.kind hk
  · rw [hk]; rfl
  · rw [hk]; rfl

namespace Lexer

omit [Alphabet] in
/-- Of the tokens of ordinary text only a line feed closes a line. -/
theorem lineFeed_of_closesLine {t : Token} (ht : t.kind.isTextual = true) {reserved : List String}
    (h : (t.reserve reserved).closesLine = true) : t.kind = .delimiter ∧ t.value = "\n" := by
  rw [Token.closesLine, Token.value_reserve] at h
  unfold Token.reserve at h
  split at h
  · cases h
  · have hk : t.kind ≠ .directive := by
      intro hk
      rw [hk] at ht
      cases ht
    simpa [hk] using h

/-- **A token that closes a line ends in a line feed**, the end of the tape has not been seen after it, and
the lexer is at the start of a line. -/
theorem nextToken_closed {stop : Location} :
    Gives (fun l : Lexer Taped => ∃ ls, Taped.Owes stop ls l.source) nextToken fun o l =>
      ∀ t ∈ o, t.closesLine = true → Taped.Closed t l.source ∧ l.atLineStart = true := by
  rintro l ⟨ls, hls⟩
  obtain ⟨o, u, hu, -, hq⟩ := (Taped.ledger stop).readToken Table.fits_text ls
    ⟨.ofSource l.state.source, l.log⟩ ⟨rfl, hls⟩
  cases o with
  | none => exact ⟨none, _, nextToken_none hu, nofun⟩
  | some t =>
    obtain ⟨hchildren, rest, hrest, -⟩ := hq
    by_cases hopens : Opens t l.state
    · obtain ⟨cs, v, hv, hend⟩ := Taped.readDirective_closed l.state.reserved
        ⟨.ofSource u.state.source, u.log⟩ ⟨rfl, rest, hrest⟩
      refine ⟨_, _, nextToken_directive hu hopens hv, ?_⟩
      rintro _ ⟨⟩ hclose
      have hlast : cs.getLast?.any (fun c => c.kind == .directiveEnd) = true := by
        simpa [Token.closesLine, Token.withKind, Token.withChildren] using hclose
      obtain ⟨c, hc, hk⟩ := (Option.any_eq_true _ _).1 hlast
      have hclosed := hend c hc (beq_iff_eq.1 hk)
      -- the text of the last child is the last of the text of all
      obtain ⟨before, rfl⟩ := List.getLast?_eq_some_iff.1 hc
      refine ⟨⟨hclosed.1, ?_⟩, hopens.2.2⟩
      rw [Token.leaves_eq]
      change Glyph.EndsLine (_ ++ Token.leavesAll (before ++ [c]))
      rw [Token.leavesAll_append, Token.leavesAll, Token.leavesAll, List.append_nil]
      exact (hclosed.2.append _).append _
    · refine ⟨_, _, nextToken_plain hu hopens, ?_⟩
      rintro _ ⟨⟩ hclose
      have hfeed := lineFeed_of_closesLine (Scanner.isTextual_of_readToken hu) hclose
      have hclosed := Taped.readToken_closed Table.breaks_text rfl hls hu hfeed.2
      refine ⟨⟨hclosed.1, ?_⟩, ?_⟩
      · rw [Token.leaves_of_children (by simpa using hchildren), Token.glyphs_reserve,
          ← Token.leaves_of_children hchildren]
        exact hclosed.2
      · change startAfter t _ = true
        rw [startAfter, if_pos (by rw [hfeed.1]; rfl), decide_eq_true hfeed, Bool.or_true]

end Lexer

end Pretoken
