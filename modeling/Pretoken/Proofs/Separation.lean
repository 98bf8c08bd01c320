import Pretoken.Proofs.RoundTrip
import Pretoken.Proofs.Stranding

/-!
# Are the phases separate?

The tokens of a text should be those of the glyphs that the phases show. They are, unless an identifier
ends right before a backslash and a line feed: the identifier looks at both and gives them back, and the
phases take them for a splice.

* `Replay.ledger`: a replay owes the text behind its glyphs.
* `Phases.readToken_lexeme`: the phases and a replay give the same token; what comes after it.
* `Phases.readFrom_outcome`: the rest of a line.
* **`Lexer.tokens_eq_replay_iff`**: the tokens are those of a replay if and only if no name is stranded.
* `Lexer.tokens_ne_replay`: a text where they are not.
-/

namespace Pretoken

open ScanM (Gives)
open Glyph (startsSplice leavesAll)

/-- A replay owes the text behind the glyphs to come. -/
def Replay.ledger [Alphabet] : Ledger Replay where
  Owes ls r := (∀ g ∈ r.coming, g.Placed) ∧ leavesAll r.coming = ls
  Ended ls r := r.coming = [] ∧ ls = []
  owes_of_ended := by
    rintro ls r ⟨hr, rfl⟩
    rw [hr]
    exact ⟨by simp, rfl⟩
  readToken := by
    rintro table hf _ s ⟨hd, hp, rfl⟩
    obtain ⟨o, s', hs', hr⟩ := Replay.readToken_gives hf hp s ⟨hd, rfl⟩
    refine ⟨o, s', hs', ?_⟩
    cases o with
    | none => exact ⟨hr.2.1, hr.2.2, by rw [hr.1]; rfl⟩
    | some t =>
      obtain ⟨-, hc, p, rest, -, hw, hcov, hd', rfl⟩ := hr
      refine ⟨hd', hc, leavesAll s'.state.source.coming, ⟨fun g hg => hp g ?_, rfl⟩, ?_⟩
      · rw [hw]
        exact List.mem_append_right _ hg
      · rw [hcov.leavesAll_eq, hw, Glyph.leavesAll_append]

/-- In a line, a backslash and a line feed are the last two tokens. -/
theorem Replay.readFrom_splice [Alphabet] {b n : Glyph} {w : List Glyph} (hb : b.is '\\') (hn : n.is '\n')
    (reserved : List String) (place : LinePlace) {r : Logged (DirectiveLine Replay)}
    (hr : Replay.Ready (b :: n :: w) r.state.scanner) :
    ∃ r' u v, DirectiveLine.readFrom reserved place r = .ok () r' ∧
      r'.state.children = r.state.children ++ [u, v] ∧ u.glyphs = [b] ∧ v.glyphs = [n] ∧
      u.children = [] ∧ v.children = [] := by
  -- the backslash is a token of its own, and the line goes on
  have hfirst : ∃ r₁ u, DirectiveLine.lineTurn reserved place r = .ok (.again .body) r₁ ∧
      r₁.state.children = r.state.children ++ [u] ∧ u.glyphs = [b] ∧ u.children = [] ∧
      Replay.Ready (n :: w) r₁.state.scanner := by
    obtain ⟨_, s, hs, rfl, hready⟩ := readToken_backslash place.breaks hb hn ⟨r.state.scanner, r.log⟩ hr
    have hvalue : (⟨[b], .unknown, []⟩ : Token).value ≠ "include" := by
      rw [Token.value, Glyph.spelling_cons (Glyph.is_iff.1 hb)]
      decide
    have hnext : place.next ((⟨[b], .unknown, []⟩ : Token).reserve reserved) = .again .body := by
      rw [Token.reserve, if_neg (by simp), LinePlace.next, if_neg (by simp),
        if_neg (by simp [TokenKind.isSpace]), if_neg fun h => hvalue h.2]
    have hturn : DirectiveLine.lineTurn reserved place r = _ := DirectiveLine.lineTurn_some hs
    rw [hnext] at hturn
    exact ⟨_, _, hturn, List.reverse_cons, by simp, by simp, hready⟩
  obtain ⟨r₁, u, hturn, hu, hub, huc, hready⟩ := hfirst
  -- the line feed ends it
  obtain ⟨_, s, hs, rfl, -⟩ := readToken_lineFeed LinePlace.body.breaks hn
    ⟨r₁.state.scanner, r₁.log⟩ hready
  have hlast : DirectiveLine.lineTurn reserved .body r₁ = .ok (.done ()) _ :=
    DirectiveLine.lineTurn_some hs
  refine ⟨_, u, LinePlace.body.mark (Token.reserve reserved ⟨[n], .directiveEnd, []⟩),
    (DirectiveLine.readFrom_again hturn).trans (DirectiveLine.readFrom_done hlast),
    ?_, hub, by simp, huc, by simp⟩
  rw [List.append_cons, ← hu]
  exact List.reverse_cons

namespace Phases

variable {w : List Glyph} {e : Glyph}

/-! ## One token -/

/-- The phases after a token of the kind `k`, where the glyphs `w` were to come. -/
def After (k : TokenKind) (w : List Glyph) (e : Glyph) (s : Phases) : Prop :=
  if k.isName then s.Loose w e else s.Shows w e

/-- Either both go on in the same way, or the phases have lost a backslash and a line feed. -/
theorem After.cases {k : TokenKind} {s : Phases} (h : s.After k w e) :
    ((k.isName = true → startsSplice w = false) ∧ s.Shows w e) ∨
      (k.isName = true ∧ ∃ b n w', w = b :: n :: w' ∧ b.is '\\' ∧ n.is '\n' ∧
        ∃ w₂ e₂, s.Shows w₂ e₂ ∧ ∀ g ∈ w₂.head?, b.leaves.length < g.leaves.length) := by
  unfold After at h
  split at h
  · next hk =>
    rcases h with ⟨hsp, hs⟩ | ⟨hsp, w₂, e₂, hs, -, hlt⟩
    · exact .inl ⟨fun _ => hsp, hs⟩
    · match w, hsp, hlt with
      | b :: n :: w', hsp, hlt =>
        rw [startsSplice, Bool.and_eq_true] at hsp
        exact .inr ⟨hk, b, n, w', rfl, hsp.1, hsp.2, w₂, e₂, hs, hlt b rfl⟩
  · next hk => exact .inl ⟨fun hk' => absurd hk' hk, h⟩

theorem After.owes {k : TokenKind} {s : Phases} (h : s.After k w e) :
    s.Owes (leavesAll w ++ e.leaves) := by
  unfold After at h
  split at h
  · exact Loose.owes h
  · exact ⟨w, e, h, rfl⟩

/-- What came of reading a token from both. -/
def Split (w : List Glyph) (e : Glyph) (s : Scanner Phases) (r : Scanner Replay) : Option Token → Prop
  | none => w = [] ∧ s.source.Shows [] e ∧ r.source.coming = []
  | some t => t.children = [] ∧ Lexeme w t r.source.coming ∧ s.source.After t.kind r.source.coming e ∧
      (startsSplice w = true → t.kind ≠ .directiveEnd)

variable [Alphabet]

/-- **The phases and a replay give the same token.** -/
theorem readToken_lexeme {table : Table} {k : TokenKind} (ht : table.Breaks k)
    {s : Logged (Scanner Phases)} {r : Logged (Scanner Replay)} (hs : Ready w e s.state)
    (hr : Replay.Ready w r.state) :
    ∃ o s' r', Scanner.readToken table s = .ok o s' ∧ Scanner.readToken table r = .ok o r' ∧
      s'.state.draft = .empty ∧ r'.state.draft = .empty ∧ Split w e s'.state r'.state o := by
  obtain ⟨o, s', r', hs', hr', hd, hreads, ho⟩ := readToken_shadow ht.fits hs hr
  refine ⟨o, s', r', hs', hr', hd, ?_⟩
  cases o with
  | none => exact ⟨hreads.2.1, hreads.1, ho, hreads.2.2⟩
  | some t =>
    obtain ⟨hk, hc, p, rest, hne, hw, hcov, hd', rfl⟩ := hreads
    -- what stands alone is read alone, and there is only one result
    have hb (h : startsSplice w = true) : t.glyphs = w.take 1 ∧ t.kind = .unknown := by
      obtain _ | ⟨b, _ | ⟨n, w⟩⟩ := w
      · cases h
      · cases h
      · rw [startsSplice, Bool.and_eq_true] at h
        obtain ⟨_, _, heq, rfl, -⟩ := Replay.readToken_backslash ht h.1 h.2 r hr
        rw [hr'] at heq
        cases heq
        exact ⟨rfl, rfl⟩
    have hn (h : Glyph.startsLine w = true) : t.glyphs = w.take 1 := by
      cases w with
      | nil => cases h
      | cons n w =>
        obtain ⟨_, _, heq, rfl, -⟩ := Replay.readToken_lineFeed ht h r hr
        rw [hr'] at heq
        cases heq
        rfl
    refine ⟨hd', hc, ⟨hs.2.placed, ⟨p, hne, hw, hcov⟩, fun h => (hb h).1, hn⟩, ?_, ?_⟩
    · unfold After
      by_cases hid : t.kind = .identifier
      · rw [if_pos (by rw [hid]; rfl)]
        simpa only [hid, if_true] using ho
      · rw [if_neg fun h => hid (hk h)]
        simpa only [hid, if_false] using ho
    · intro h
      rw [(hb h).2]
      decide

/-! ## The rest of a line -/

variable (reserved : List String)

/-- **A turn in a line**, from the phases and from a replay. -/
theorem lineTurn_split (place : LinePlace) {s : Logged (DirectiveLine Phases)}
    {r : Logged (DirectiveLine Replay)} (hs : Ready w e s.state.scanner)
    (hr : Replay.Ready w r.state.scanner) :
    ∃ turn s' r', DirectiveLine.lineTurn reserved place s = .ok turn s' ∧
      DirectiveLine.lineTurn reserved place r = .ok turn r' ∧
      s'.state.scanner.draft = .empty ∧ r'.state.scanner.draft = .empty ∧
      ((turn = .done () ∧ w = [] ∧ s'.state.children = s.state.children ∧
          r'.state.children = r.state.children ∧ s'.state.scanner.source.Shows [] e ∧
          r'.state.scanner.source.coming = []) ∨
        ∃ u, s'.state.children = s.state.children ++ [u] ∧ r'.state.children = r.state.children ++ [u] ∧
          u.children = [] ∧ Lexeme w u r'.state.scanner.source.coming ∧
          s'.state.scanner.source.After u.kind r'.state.scanner.source.coming e ∧
          (turn = .done () → startsSplice w = false ∧ u.kind.isName = false)) := by
  obtain ⟨o, s', r', hs', hr', hd, hd', ho⟩ := readToken_lexeme place.breaks
    (s := ⟨s.state.scanner, s.log⟩) (r := ⟨r.state.scanner, r.log⟩) hs hr
  cases o with
  | none => exact ⟨_, _, _, DirectiveLine.lineTurn_none hs', DirectiveLine.lineTurn_none hr', hd, hd',
      .inl ⟨rfl, ho.1, rfl, rfl, ho.2⟩⟩
  | some t =>
    obtain ⟨hc, hl, ha, hend⟩ := ho
    have hname : (place.mark (t.reserve reserved)).kind.isName = t.kind.isName := by
      refine LinePlace.isName_mark fun hp hd => ?_
      subst hp
      exact Replay.readToken_directiveName hs.2.placed hr hr' hd
    refine ⟨_, _, _, DirectiveLine.lineTurn_some hs', DirectiveLine.lineTurn_some hr', hd, hd', .inr
      ⟨_, List.reverse_cons, List.reverse_cons, by simpa using hc, hl.congr (by simp), ?_,
        fun hdone => ?_⟩⟩
    · rw [After, hname]
      exact ha
    · have hk : t.kind = .directiveEnd :=
        Token.kind_reserve_eq_directiveEnd.1 (LinePlace.kind_of_next_eq_done hdone)
      refine ⟨Bool.eq_false_iff.2 fun h => hend h hk, ?_⟩
      rw [hname, hk]
      rfl

/-- The first token of the rest of a line is not lighter than the first glyph. -/
theorem readFrom_outweighs (place : LinePlace) {s : Logged (DirectiveLine Phases)}
    (hs : Ready w e s.state.scanner) :
    ∃ s' cs, DirectiveLine.readFrom reserved place s = .ok () s' ∧
      s'.state.children = s.state.children ++ cs ∧ Outweighs cs w := by
  obtain ⟨turn, s₁, r₁, hs₁, -, hd, -, h⟩ := lineTurn_split reserved place (s := s)
    (r := ⟨⟨⟨.ofGlyphs w none, .empty⟩, []⟩, []⟩) hs ⟨rfl, rfl⟩
  rcases h with ⟨rfl, rfl, hc, -⟩ | ⟨u, hc, -, -, hl, ha, -⟩
  · exact ⟨s₁, [], DirectiveLine.readFrom_done hs₁, by rw [hc, List.append_nil], nofun⟩
  · cases turn with
    | done =>
      refine ⟨s₁, [u], DirectiveLine.readFrom_done hs₁, hc, ?_⟩
      rintro _ ⟨⟩
      exact hl.exists_head
    | again next =>
      obtain ⟨_, s', hs', -, cs, _, hcs, -⟩ := ledger.readFrom_gives s₁.state.children _ reserved next s₁
        ⟨hd, [], _, (List.append_nil _).symm, ha.owes, rfl⟩
      refine ⟨s', u :: cs, (DirectiveLine.readFrom_again hs₁).trans hs', ?_, ?_⟩
      · rw [hcs, hc, List.append_assoc]
        rfl
      · rintro _ ⟨⟩
        exact hl.exists_head

/-- **The rest of a line**, from the phases and from a replay. -/
theorem readFrom_outcome (place : LinePlace) {s : Logged (DirectiveLine Phases)}
    {r : Logged (DirectiveLine Replay)} (hs : Ready w e s.state.scanner)
    (hr : Replay.Ready w r.state.scanner) :
    ∃ s' r' cs ds, DirectiveLine.readFrom reserved place s = .ok () s' ∧
      DirectiveLine.readFrom reserved place r = .ok () r' ∧
      s'.state.children = s.state.children ++ cs ∧ r'.state.children = r.state.children ++ ds ∧
      (∀ t ∈ ds, t.children = []) ∧ Outcome w cs ds ∧
      (cs = ds → s'.state.scanner.source.Shows r'.state.scanner.source.coming e) := by
  have paid (place : LinePlace) : Draws DirectiveLine.measure
      (DirectiveLine.lineTurn reserved place : ScanM (DirectiveLine Phases) _) :=
    (DirectiveLine.lineTurn_within reserved place).draws
  -- along the turns of the phases
  induction place, s using loop_induct paid generalizing w r with
  | step place s ih =>
    obtain ⟨turn, s₁, r₁, hs₁, hr₁, hd, hd', h⟩ := lineTurn_split reserved place hs hr
    rcases h with ⟨rfl, rfl, hsc, hrc, hsh, hco⟩ | ⟨u, hsc, hrc, hu, hl, ha, hend⟩
    · refine ⟨s₁, r₁, [], [], DirectiveLine.readFrom_done hs₁, DirectiveLine.readFrom_done hr₁,
        by simp [hsc], by simp [hrc], by simp, .nil, fun _ => ?_⟩
      rw [hco]
      exact hsh
    · cases turn with
      | done =>
        obtain ⟨hsp, hk⟩ := hend rfl
        refine ⟨s₁, r₁, [u], [u], DirectiveLine.readFrom_done hs₁, DirectiveLine.readFrom_done hr₁,
          hsc, hrc, by simpa using hu, .last hl hsp hu, fun _ => ?_⟩
        simpa only [After, hk, Bool.false_eq_true, if_false] using ha
      | again next =>
        rw [DirectiveLine.readFrom_again hs₁, DirectiveLine.readFrom_again hr₁]
        rcases ha.cases with ⟨hsp, hsh⟩ | ⟨hk, b, n, w', hco, hb, hn, w₂, e₂, hsh, hlt⟩
        · obtain ⟨s', r', cs, ds, hs', hr', hcs, hds, hch, ho, hin⟩ := ih next s₁ hs₁ ⟨hd, hsh⟩ ⟨hd', rfl⟩
          refine ⟨s', r', u :: cs, u :: ds, hs', hr', by simp [hcs, hsc], by simp [hds, hrc],
            List.forall_mem_cons.2 ⟨hu, hch⟩, .same hl ho hsp (by rw [hu]; rfl), fun h => hin ?_⟩
          exact (List.cons.inj h).2
        · rw [hco] at hl
          obtain ⟨r', x, y, hr', hds, hx, hy, hxc, hyc⟩ := Replay.readFrom_splice hb hn reserved next
            (r := r₁) ⟨hd', hco⟩
          obtain ⟨s', cs, hs', hcs, hout⟩ := readFrom_outweighs reserved next (s := s₁) ⟨hd, hsh⟩
          have hne : cs ≠ [x, y] := hout.ne hx hlt
          refine ⟨s', r', u :: cs, [u, x, y], hs', hr', by simp [hcs, hsc], by simp [hds, hrc],
            by simp [hu, hxc, hyc], .parted hl hk hb hn hx hy hne, fun h => absurd ?_ hne⟩
          exact (List.cons.inj h).2

/-- **The children of a directive**, from the phases and from a replay. -/
theorem readDirective_outcome {s : Logged (Scanner Phases)} {r : Logged (Scanner Replay)}
    (hs : Ready w e s.state) (hr : Replay.Ready w r.state) :
    ∃ cs ds s' r', Scanner.readDirective reserved s = .ok cs s' ∧
      Scanner.readDirective reserved r = .ok ds r' ∧
      (cs = ds ↔ Token.strandsAmong ds = false) ∧
      (cs = ds → s'.state.source.Shows r'.state.source.coming e) := by
  obtain ⟨s', r', cs, ds, hs', hr', hcs, hds, hch, ho, hin⟩ := readFrom_outcome reserved .name
    (s := ⟨.ofScanner s.state, s.log⟩) (r := ⟨.ofScanner r.state, r.log⟩) hs hr
  obtain rfl : s'.state.children = cs := hcs
  obtain rfl : r'.state.children = ds := hds
  refine ⟨_, _, _, _, Scanner.readDirective_ok hs', Scanner.readDirective_ok hr', ?_, hin⟩
  rw [← Token.stranded_eq_strandsAmong hch]
  exact ho.eq_iff

end Phases

namespace Lexer

/-! ## One token of a text -/

/-- The lexers agree on everything but their sources. -/
def Abreast (l : Lexer Phases) (r : Lexer Replay) : Prop :=
  l.reserved = r.reserved ∧ l.atLineStart = r.atLineStart

/-- What came of the next token from both, where the glyphs `w` were to come: no token, one that begins no
directive, or a directive. -/
inductive Split (w : List Glyph) (e : Glyph) (l : Lexer Phases) (r : Lexer Replay) :
    Option Token → Option Token → Prop
  | none : w = [] → Split w e l r none none
  | plain {t : Token} : Lexeme w t r.source.coming → t.children = [] →
      l.source.After t.kind r.source.coming e → Split w e l r (some t) (some t)
  | directive {t : Token} {cs ds : List Token} {w' : List Glyph} : Lexeme w t w' → t.value = "#" →
      t.kind.isName = false → (cs = ds ↔ Token.strandsAmong ds = false) →
      (cs = ds → l.source.Shows r.source.coming e) →
      Split w e l r (some (t.withChildren cs)) (some (t.withChildren ds))

variable {w : List Glyph} {e : Glyph}

theorem Split.exists_head {l : Lexer Phases} {r : Lexer Replay} {o o' : Option Token}
    (h : Split w e l r o o') :
    ∀ t ∈ o, ∃ g ∈ w.head?, g.leaves.length ≤ (leavesAll t.glyphs).length := by
  cases h with
  | none => nofun
  | plain hlex =>
    rintro _ ⟨⟩
    exact hlex.exists_head
  | directive hlex =>
    rintro _ ⟨⟩
    exact hlex.exists_head

section

variable [Alphabet]

/-- **The next token of a text**, from the phases and from a replay. -/
theorem nextToken_split {l : Logged (Lexer Phases)} {r : Logged (Lexer Replay)}
    (hl : l.state.source.Shows w e) (hr : r.state.source.coming = w) (hlr : Abreast l.state r.state) :
    ∃ o o' l' r', nextToken l = .ok o l' ∧ nextToken r = .ok o' r' ∧ Split w e l'.state r'.state o o' ∧
      Abreast l'.state r'.state := by
  obtain ⟨o, s, q, hs, hq, -, -, ho⟩ := Phases.readToken_lexeme Table.breaks_text
    (s := ⟨.ofSource l.state.source, l.log⟩) (r := ⟨.ofSource r.state.source, r.log⟩) ⟨rfl, hl⟩ ⟨rfl, hr⟩
  cases o with
  | none => exact ⟨_, _, _, _, nextToken_none hs, nextToken_none hq, .none ho.1, hlr⟩
  | some t =>
    obtain ⟨hc, hlex, ha, -⟩ := ho
    by_cases hopens : Opens t l.state
    · have hopens' : Opens t r.state := ⟨hopens.1, hopens.2.1, hlr.2 ▸ hopens.2.2⟩
      have hsh : s.state.source.Shows q.state.source.coming e := by
        rwa [Phases.After, if_neg (by rw [hopens.1]; decide)] at ha
      obtain ⟨cs, ds, s', q', hs', hq', hcs, hin⟩ := Phases.readDirective_outcome l.state.reserved
        (s := ⟨.ofSource s.state.source, s.log⟩) (r := ⟨.ofSource q.state.source, q.log⟩)
        ⟨rfl, hsh⟩ ⟨rfl, rfl⟩
      rw [hlr.1] at hq'
      exact ⟨_, _, _, _, nextToken_directive hs hopens hs', nextToken_directive hq hopens' hq',
        .directive (t := t.withKind .directive) (hlex.congr rfl) hopens.2.1 rfl hcs hin, hlr⟩
    · have hopens' : ¬ Opens t r.state := fun h => hopens ⟨h.1, h.2.1, hlr.2 ▸ h.2.2⟩
      refine ⟨_, _, _, _, nextToken_plain hs hopens, nextToken_plain hq hopens', ?_, hlr.1, ?_⟩
      · dsimp only
        rw [hlr.1]
        refine .plain (hlex.congr (by simp)) (by simpa using hc) ?_
        rw [Phases.After, Token.isName_reserve]
        exact ha
      · dsimp only
        rw [hlr.2]

/-! ## All tokens of a text -/

theorem tokens_outweigh {l : Logged (Lexer Phases)} (hl : l.state.source.Shows w e) :
    ∃ ts l', tokens l = .ok (ts, .ok ()) l' ∧ Outweighs ts w := by
  obtain ⟨o, o', l₁, r₁, hl₁, -, hsplit, -⟩ := nextToken_split (l := l)
    (r := ⟨⟨.ofGlyphs w none, l.state.reserved, l.state.atLineStart⟩, []⟩) hl rfl ⟨rfl, rfl⟩
  cases o with
  | none => exact ⟨[], l₁, tokens_none hl₁, nofun⟩
  | some t =>
    obtain ⟨ts, l', hl'⟩ := Ledger.tokens_ok_after (L := Phases.ledger) ⟨w, e, hl, rfl⟩ hl₁
    refine ⟨t :: ts, l', tokens_some hl₁ hl', ?_⟩
    rintro _ ⟨⟩
    exact hsplit.exists_head t rfl

/-- A backslash and a line feed are two tokens of a replay. -/
theorem tokens_splice {b n : Glyph} {r : Logged (Lexer Replay)} (hr : r.state.source.coming = b :: n :: w)
    (hb : b.is '\\') (hn : n.is '\n') (hw : ∀ g ∈ w, g.Placed) :
    ∃ u v us r', tokens r = .ok (u :: v :: us, .ok ()) r' ∧ u.glyphs = [b] ∧ v.glyphs = [n] := by
  obtain ⟨_, s, hs, rfl, hready⟩ := Replay.readToken_backslash Table.breaks_text hb hn
    ⟨.ofSource r.state.source, r.log⟩ ⟨rfl, hr⟩
  have hu := nextToken_plain hs fun h => TokenKind.noConfusion h.1
  obtain ⟨_, s', hs', rfl, hready'⟩ := Replay.readToken_lineFeed Table.breaks_text hn
    ⟨.ofSource s.state.source, s.log⟩ ⟨rfl, hready.2⟩
  have hv := nextToken_plain (l := ⟨{ r.state with source := s.state.source, atLineStart := false }, s.log⟩)
    hs' fun h => TokenKind.noConfusion h.1
  obtain ⟨us, r', hr'⟩ := Ledger.tokens_ok (L := Replay.ledger) (l := ⟨⟨s'.state.source, r.state.reserved,
    startAfter ⟨[n], .delimiter, []⟩ false⟩, s'.log⟩) ⟨hready'.2 ▸ hw, rfl⟩
  exact ⟨_, _, us, r', tokens_some hu (tokens_some hv hr'), by simp, by simp⟩

/-- **All tokens of a text**, from the phases and from a replay. -/
theorem tokens_outcome {l : Logged (Lexer Phases)} {r : Logged (Lexer Replay)}
    (hl : l.state.source.Shows w e) (hr : r.state.source.coming = w) (hlr : Abreast l.state r.state) :
    ∃ ts us l' r', tokens l = .ok (ts, .ok ()) l' ∧ tokens r = .ok (us, .ok ()) r' ∧ Outcome w ts us := by
  -- on what the replay still has to give
  induction hm : measure r using Nat.strongRecOn generalizing w l r with
  | ind m ih =>
    subst hm
    obtain ⟨o, o', l₁, r₁, hl₁, hr₁, hsplit, hlr₁⟩ := nextToken_split hl hr hlr
    have hless {u : Token} (hu : o' = some u) : measure r₁ < measure r := by
      have := nextToken_within r o' r₁ hr₁
      rw [hu] at this
      exact Nat.lt_of_succ_le this
    cases hsplit with
    | none hw =>
      subst hw
      exact ⟨[], [], l₁, r₁, tokens_none hl₁, tokens_none hr₁, .nil⟩
    | @plain t hlex hc ha =>
      rcases ha.cases with ⟨hsp, hsh⟩ | ⟨hk, b, n, w', hco, hb, hn, w₂, e₂, hsh, hlt⟩
      · obtain ⟨ts, us, l', r', hl', hr', ho⟩ := ih _ (hless rfl) hsh rfl hlr₁ rfl
        exact ⟨_, _, l', r', tokens_some hl₁ hl', tokens_some hr₁ hr',
          .same hlex ho hsp (by rw [hc]; rfl)⟩
      · rw [hco] at hlex
        have hplaced : ∀ g ∈ w', g.Placed := by
          obtain ⟨p, -, rfl, -⟩ := hlex.covers
          exact fun g hg => hlex.placed g (by simp [hg])
        obtain ⟨u, v, us, r', hr', hu, hv⟩ := tokens_splice hco hb hn hplaced
        obtain ⟨ts, l', hl', hout⟩ := tokens_outweigh hsh
        exact ⟨_, _, l', r', tokens_some hl₁ hl', tokens_some hr₁ hr',
          .parted hlex hk hb hn hu hv (hout.ne hu hlt)⟩
    | @directive t cs ds w' hlex hv hk hcs hin =>
      by_cases heq : cs = ds
      · obtain ⟨ts, us, l', r', hl', hr', ho⟩ := ih _ (hless rfl) (hin heq) rfl hlr₁ rfl
        exact ⟨_, _, l', r', tokens_some hl₁ hl', tokens_some hr₁ hr',
          .directive hlex hv hk hcs fun _ => ho.eq_iff⟩
      · obtain ⟨ts, l', hl'⟩ := Ledger.tokens_ok_after (L := Phases.ledger) ⟨w, e, hl, rfl⟩ hl₁
        obtain ⟨us, r', hr'⟩ := Ledger.tokens_ok_after (L := Replay.ledger) ⟨hr ▸ hlex.placed, rfl⟩ hr₁
        exact ⟨_, _, l', r', tokens_some hl₁ hl', tokens_some hr₁ hr',
          .directive hlex hv hk hcs fun h => absurd h heq⟩

/-- **When the phases are separate.** Drain the phases, and split what they show into tokens: these are
the tokens of the text itself if and only if none of them is a name, followed by a backslash and a line
feed. Both ways to split the text read all tokens. -/
theorem tokens_eq_replay_iff {feed : Feed} {cs : List Char} (h : feed.Supplies (Utf8.encode cs))
    (name : Option String) (trigraphs : Bool) (reserved : List String) :
    ∃ (gs : List Glyph) (e : Glyph) (ts us : List Token),
      (Source.drain.run (Phases.ofFile (.ofFeed feed name) trigraphs)).1 = .ok (gs, .ok e) ∧
      (tokens.run (ofFile (.ofFeed feed name) trigraphs reserved)).1 = .ok (ts, .ok ()) ∧
      (tokens.run (ofSource (Replay.ofGlyphs gs name) reserved)).1 = .ok (us, .ok ()) ∧
      (ts = us ↔ Token.stranded us = false) := by
  have hshows := Phases.ofFile_shows h name trigraphs rfl
  obtain ⟨_, hdrain, rfl, -⟩ := ScanM.run_of_gives (Phases.drain_gives _) hshows
  obtain ⟨ts, us, l', r', hl', hr', ho⟩ := tokens_outcome
    (l := ⟨ofFile (.ofFeed feed name) trigraphs reserved, []⟩)
    (r := ⟨ofSource (Replay.ofGlyphs _ name) reserved, []⟩) hshows rfl ⟨rfl, rfl⟩
  refine ⟨_, _, ts, us, hdrain, ?_, ?_, ho.eq_iff⟩
  · rw [ScanM.run, hl']
  · rw [ScanM.run, hr']

end

/-- A name in a directive before a backslash and a line feed, both of them made of trigraphs and splices; the
bytes arrive in two pieces. -/
theorem tokens_eq_replay_iff_directive :
    Feed.Supplies [.bytes [35, 105, 102, 63], .bytes [63, 47, 63, 63, 47, 10, 10]]
      (Utf8.encode ['#', 'i', 'f', '?', '?', '/', '?', '?', '/', '\n', '\n']) ∧
    ∃ (gs : List Glyph) (e : Glyph) (ts us : List Token),
      (Source.drain.run (Phases.ofFile (.ofFeed
        [.bytes [35, 105, 102, 63], .bytes [63, 47, 63, 63, 47, 10, 10]] none) true)).1 = .ok (gs, .ok e) ∧
      (tokens.run (ofFile (.ofFeed
        [.bytes [35, 105, 102, 63], .bytes [63, 47, 63, 63, 47, 10, 10]] none) true ["if"])).1 = .ok (ts, .ok ()) ∧
      (tokens.run (ofSource (Replay.ofGlyphs gs none) ["if"])).1 = .ok (us, .ok ()) ∧
      (ts = us ↔ Token.stranded us = false) := by
  have h : Feed.Supplies [.bytes [35, 105, 102, 63], .bytes [63, 47, 63, 63, 47, 10, 10]]
      (Utf8.encode ['#', 'i', 'f', '?', '?', '/', '?', '?', '/', '\n', '\n']) :=
    .piece 35 [105, 102, 63] (.piece 63 [47, 63, 63, 47, 10, 10] .nil)
  exact ⟨h, tokens_eq_replay_iff h none true ["if"]⟩

/-- **The phases are not separate.** Of an identifier, two backslashes and two line feeds the phases show the
identifier, a backslash and a line feed. The lexer takes these for a splice, and only the identifier is
left. -/
theorem tokens_ne_replay :
    Feed.Supplies [.bytes [97, 92, 92, 10, 10]] (Utf8.encode ['a', '\\', '\\', '\n', '\n']) ∧
    ∃ (gs : List Glyph) (e : Glyph) (ts us : List Token),
      (Source.drain.run (Phases.ofFile (.ofFeed [.bytes [97, 92, 92, 10, 10]] none) false)).1 = .ok (gs, .ok e) ∧
      (tokens.run (ofFile (.ofFeed [.bytes [97, 92, 92, 10, 10]] none) false [])).1 = .ok (ts, .ok ()) ∧
      (tokens.run (ofSource (Replay.ofGlyphs gs none) [])).1 = .ok (us, .ok ()) ∧
      ts.map (fun t => (t.kind, t.value)) = [(.identifier, "a")] ∧
      us.map (fun t => (t.kind, t.value)) = [(.identifier, "a"), (.unknown, "\\"), (.delimiter, "\n")] ∧
      ts ≠ us := by
  let a : Glyph := .plain 'a' none .origin
  let b : Glyph := .plain '\\' none (Location.origin.right 1)
  let n : Glyph := .merged '\n' [.plain '\\' none (Location.origin.right 2),
    .plain '\n' none (Location.origin.right 3), .plain '\n' none (Location.origin.next '\n')]
  refine ⟨Feed.supplies_single _, [a, b, n], .eof none [], [⟨[a], .identifier, []⟩],
    [⟨[a], .identifier, []⟩, ⟨[b], .unknown, []⟩, ⟨[n], .delimiter, []⟩], ?_, ?_, ?_, ?_, ?_, ?_⟩
  iterate 6 decide +kernel

end Lexer

end Pretoken
