import Mathlib.Data.List.DropRight
import Pretoken.Proofs.RoundTrip

/-!
# Where directives begin

A number sign begins a directive if only white space and comments have come since the last boundary: the
start of the text, a line feed, or a directive.

* `Token.Textual`: what the tokens of ordinary text have in common.
* `Token.sinceBoundary`, `Token.atStart`: the tokens since the last boundary, and whether they leave a
  lexer at the start of a line.
* `Token.Scoped`: a token is what it should be after the tokens before it.
* `Lexer.nextToken_scoped`: one token.
* **`Lexer.tokens_scoped`**: all tokens of a text.
-/

namespace Pretoken

open ScanM (Gives)

/-! ## Tokens of ordinary text -/

/-- A token as it is read from ordinary text. -/
structure Token.Textual (t : Token) : Prop where
  kind : t.kind.isTextual = true
  sharp : (Glyph.spelling t.glyphs).head? = some '#' → t.kind = .punctuator

theorem Token.Textual.kind_of_value {t : Token} (h : t.Textual) {r : List Char}
    (hv : t.value = String.ofList ('#' :: r)) : t.kind = .punctuator := by
  refine h.sharp ?_
  rw [String.ofList_injective hv]
  rfl

namespace Replay

open Scanner

theorem readRest_textual [Alphabet] (c : Char) :
    Returns (readRest .text c : ScanM (Scanner Replay) TokenKind) fun k =>
      k.isTextual = true ∧ (c = '#' → k = .punctuator) := by
  intro s k s' h
  refine ⟨?_, ?_⟩
  · rcases readRest_returns .text c s k s' h with hk | rfl | rfl
    · exact Table.kinds_text k hk
    · rfl
    · rfl
  · rintro rfl
    have hl : Table.text.lookup '#' =
        some (.nested [Table.fixed (.one '#') .punctuator] (.fixed .punctuator)) := rfl
    rw [readRest, hl] at h
    have hk := Action.run_returns _ s k s' h
    simpa [Action.gather, Case.gather, Table.fixed, Rule.kinds] using hk

theorem Holding.exists_tail {g : Glyph} {w : List Glyph} {s : Scanner Replay}
    (h : Holding (g :: w) [] 1 s) : ∃ gs, s.draft.glyphs = g :: gs := by
  obtain ⟨hs, hn⟩ := h
  have hlen : s.draft.glyphs.length = s.draft.size := by simp [Draft.glyphs, Draft.size]
  cases hd : s.draft.glyphs with
  | nil =>
    rw [hd, List.length_nil] at hlen
    omega
  | cons x xs =>
    rw [hd] at hs
    exact ⟨xs, by rw [(List.cons.inj hs).1]⟩

/-- **What begins with a number sign is a punctuator**, even if the sign is a digraph. -/
theorem readToken_textual [Alphabet] {w : List Glyph} (hw : ∀ g ∈ w, g.Placed) :
    Gives (Ready w) (readToken .text) fun o _ => ∀ t ∈ o, t.Textual := by
  cases w with
  | nil =>
    rintro ⟨⟨⟨coming, name, finish⟩, d⟩, log⟩ ⟨rfl, rfl⟩
    exact ⟨none, _, rfl, nofun⟩
  | cons g w =>
    obtain ⟨c, hc⟩ := (hw g (by simp)).exists_value
    refine (readToken_cons (S := fun k gs _ => (k.isTextual = true ∧
      ((Glyph.spelling gs).head? = some '#' → k = .punctuator)) ∧
        gs ≠ [] ∧ ∀ g ∈ gs, g.isEof = false) hc (fun _ _ _ hs => hs.2) ?_).post ?_
    · have hrest := (readRest_textual c).meets (readRest_gives hw Table.fits_text c)
      refine (hrest.pre fun s hs => ?_).post ?_
      · exact ⟨by rw [hs.1, hs.2]; rfl, by rw [hs.1]; exact Nat.le_refl 1⟩
      · rintro k s ⟨⟨hk, hlead⟩, ⟨-, p, hp, hpw, hne⟩, hpair | hhold⟩
        · exact ⟨⟨hk, fun _ => Table.pairKinds_text k hpair⟩, hp.proper hw hpw hne⟩
        · refine ⟨⟨hk, fun hsharp => hlead ?_⟩, hp.proper hw hpw hne⟩
          obtain ⟨gs, hgs⟩ := hhold.exists_tail
          rw [hgs, Glyph.spelling_cons hc] at hsharp
          exact Option.some.inj hsharp
    · rintro o s ⟨t, coming, rfl, -, -, ⟨hk, hsharp⟩, -⟩ _ ⟨⟩
      exact ⟨hk, hsharp⟩

end Replay

/-- The phases read tokens of ordinary text, and owe what comes after them. -/
theorem Phases.readToken_textual [Alphabet] :
    Gives (fun s : Scanner Phases => s.draft = .empty ∧ ∃ ls, s.source.Owes ls)
      (Scanner.readToken .text) fun o s => (∃ ls, s.source.Owes ls) ∧
        ∀ t ∈ o, t.Textual ∧ t.children = [] := by
  rintro s ⟨hd, ls, w, e, hs, rfl⟩
  obtain ⟨o, s', hs', -, hq⟩ := ledger.readToken Table.fits_text _ s ⟨hd, w, e, hs, rfl⟩
  obtain ⟨o', s'', r, hs'', hr, -⟩ := readToken_shadow Table.fits_text (s := s)
    (r := ⟨⟨.ofGlyphs w none, .empty⟩, []⟩) ⟨hd, hs⟩ ⟨rfl, rfl⟩
  obtain ⟨o'', r', hr', ht⟩ := Replay.readToken_textual hs.placed
    ⟨⟨.ofGlyphs w none, .empty⟩, []⟩ ⟨rfl, rfl⟩
  rw [hs'] at hs''
  cases hs''
  rw [hr] at hr'
  cases hr'
  refine ⟨o, s', hs', ?_⟩
  cases o with
  | none => exact ⟨⟨_, ledger.owes_of_ended hq⟩, nofun⟩
  | some t =>
    obtain ⟨hc, rest, hrest, -⟩ := hq
    refine ⟨⟨rest, hrest⟩, ?_⟩
    rintro _ ⟨⟩
    exact ⟨ht t rfl, hc⟩

/-! ## Boundaries -/

namespace Token

/-- A line feed or a directive, after which a line starts. -/
def isBoundary (t : Token) : Bool :=
  t.kind == .directive || (t.kind == .delimiter && t.value == "\n")

/-- The tokens after the last boundary, or all if there is none. -/
def sinceBoundary (ts : List Token) : List Token := ts.rtakeWhile fun t => !t.isBoundary

/-- Only white space and comments have come since the last boundary. -/
def atStart (ts : List Token) : Bool := (sinceBoundary ts).all fun t => t.kind.isSpace

theorem atStart_iff {ts : List Token} : atStart ts = true ↔
    ∀ t ∈ sinceBoundary ts, t.kind = .delimiter ∨ t.kind = .comment := by
  rw [atStart, List.all_eq_true]
  refine forall₂_congr fun t _ => ?_
  cases t.kind <;> simp [TokenKind.isSpace]

theorem atStart_boundary (ts : List Token) {t : Token} (h : t.isBoundary = true) :
    atStart (ts ++ [t]) = true := by
  rw [atStart, sinceBoundary, List.rtakeWhile_concat_neg _ _ _ (by simp [h])]
  rfl

theorem atStart_concat (ts : List Token) {t : Token} (h : t.isBoundary = false) :
    atStart (ts ++ [t]) = (atStart ts && t.kind.isSpace) := by
  rw [atStart, sinceBoundary, List.rtakeWhile_concat_pos _ _ _ (by simp [h]), List.all_append,
    List.all_cons, List.all_nil, Bool.and_true]
  rfl

/-- The token `t` after the tokens `before`. -/
structure Scoped (before : List Token) (t : Token) : Prop where
  /-- A number sign is a directive if and only if it is at the start of a line. -/
  directive_iff : t.value = "#" → (t.kind = .directive ↔
    ∀ u ∈ sinceBoundary before, u.kind = .delimiter ∨ u.kind = .comment)
  /-- Any other number sign is a punctuator. -/
  sharp : t.value = "#" → t.kind ≠ .directive → t.kind = .punctuator
  /-- Two number signs are a punctuator. -/
  sharps : t.value = "##" → t.kind = .punctuator
  /-- Only a directive has children. -/
  children : t.children ≠ [] → t.kind = .directive
  /-- A directive is a number sign. -/
  value : t.kind = .directive → t.value = "#"
  /-- No token is of a kind that only the children of a directive have. -/
  kind : t.kind ∉ [.directiveName, .directiveEnd, .filename, .standardHeader, .digits]

end Token

namespace Lexer

open Token (atStart Scoped)

/-- A token that begins no directive is what it should be. -/
theorem scoped_plain {ts : List Token} {t : Token} (ht : t.Textual) (hc : t.children = [])
    (hopen : t.value = "#" → atStart ts = false) (reserved : List String) :
    Scoped ts (t.reserve reserved) := by
  have hkind : (t.reserve reserved).kind.isTextual = true ∨ (t.reserve reserved).kind = .reserved := by
    unfold Token.reserve
    split
    · exact .inr rfl
    · exact .inl ht.kind
  have hnot : (t.reserve reserved).kind ≠ .directive := by
    intro hk
    rw [hk] at hkind
    exact absurd hkind (by decide)
  have hsharp {r : List Char} (hv : (t.reserve reserved).value = String.ofList ('#' :: r)) :
      (t.reserve reserved).kind = .punctuator := by
    rw [Token.value_reserve] at hv
    rw [Token.reserve, if_neg fun h => absurd (h.1.symm.trans (ht.kind_of_value hv)) (by decide)]
    exact ht.kind_of_value hv
  refine ⟨fun hv => ⟨fun hk => absurd hk hnot, fun hall => ?_⟩, fun hv _ => hsharp (r := []) hv,
    fun hv => hsharp (r := ['#']) hv, fun h => absurd (by rw [Token.children_reserve, hc]) h,
    fun hk => absurd hk hnot, fun hk => ?_⟩
  · rw [Token.value_reserve] at hv
    rw [← Token.atStart_iff, hopen hv] at hall
    cases hall
  · simp only [List.mem_cons, List.not_mem_nil, or_false] at hk
    rcases hk with hk | hk | hk | hk | hk <;> rw [hk] at hkind <;> exact absurd hkind (by decide)

theorem scoped_directive {ts : List Token} {t : Token} (hv : t.value = "#")
    (hs : atStart ts = true) (cs : List Token) :
    Scoped ts ((t.withKind .directive).withChildren cs) where
  directive_iff _ := ⟨fun _ => Token.atStart_iff.1 hs, fun _ => rfl⟩
  sharp _ h := absurd rfl h
  sharps h := absurd (hv.symm.trans h) (by decide)
  children _ := rfl
  value _ := hv
  kind := by
    change TokenKind.directive ∉ _
    decide

/-- The lexer keeps track of the start of a line. -/
theorem atStart_plain (ts : List Token) {t : Token} (ht : t.Textual) (reserved : List String) :
    atStart (ts ++ [t.reserve reserved]) = startAfter t (atStart ts) := by
  have hspace : (t.reserve reserved).kind.isSpace = t.kind.isSpace := by
    unfold Token.reserve
    split
    · next h => rw [h.1]; rfl
    · rfl
  by_cases hb : t.kind = .delimiter ∧ t.value = "\n"
  · have hr : t.reserve reserved = t := by
      rw [Token.reserve, if_neg fun h => absurd (h.1.symm.trans hb.1) (by decide)]
    rw [hr, Token.atStart_boundary ts (by simp [Token.isBoundary, hb]), startAfter,
      if_pos (by rw [hb.1]; rfl), decide_eq_true hb, Bool.or_true]
  · have hnb : (t.reserve reserved).isBoundary = false := by
      unfold Token.reserve
      split
      · rfl
      · have hk : t.kind ≠ .directive := by
          intro hk
          have hkind := ht.kind
          rw [hk] at hkind
          cases hkind
        simpa [Token.isBoundary, hk] using hb
    rw [Token.atStart_concat ts hnb, hspace, startAfter, decide_eq_false hb, Bool.or_false]
    cases t.kind.isSpace <;> simp

/-- What has been read so far, and that the lexer knows whether it is at the start of a line. -/
def Reading (ts : List Token) (l : Lexer Phases) : Prop :=
  (∃ ls, l.source.Owes ls) ∧ l.atLineStart = atStart ts

theorem nextToken_scoped [Alphabet] (ts : List Token) :
    Gives (Reading ts) nextToken fun o l => match o with
      | none => True
      | some t => Scoped ts t ∧ Reading (ts ++ [t]) l := by
  rintro l ⟨howes, hstart⟩
  obtain ⟨o, u, hu, ⟨ls, hls⟩, ht⟩ := Phases.readToken_textual ⟨.ofSource l.state.source, l.log⟩
    ⟨rfl, howes⟩
  cases o with
  | none => exact ⟨none, _, nextToken_none hu, trivial⟩
  | some t =>
    obtain ⟨htext, hc⟩ := ht t rfl
    by_cases hopens : Opens t l.state
    · obtain ⟨cs, v, hv, rest, hrest, -⟩ := Phases.ledger.readDirective_gives ls l.state.reserved
        ⟨.ofSource u.state.source, u.log⟩ ⟨rfl, hls⟩
      have hline : atStart ts = true := hstart.symm.trans hopens.2.2
      refine ⟨_, _, nextToken_directive hu hopens hv, scoped_directive hopens.2.1 hline cs,
        ⟨rest, hrest⟩, ?_⟩
      rw [Token.atStart_boundary ts rfl]
      exact hopens.2.2
    · refine ⟨_, _, nextToken_plain hu hopens, scoped_plain htext hc ?_ _, ⟨ls, hls⟩, ?_⟩
      · intro hv
        have hk : t.kind = .punctuator := htext.kind_of_value (r := []) hv
        rw [← hstart]
        exact Bool.eq_false_iff.2 fun hs => hopens ⟨hk, hv, hs⟩
      · rw [atStart_plain ts htext, ← hstart]

/-- **Directives begin at the starts of lines and nowhere else.** Whatever the pieces in which the bytes
of a text arrive, all tokens are read, and each is what it should be after those before it. -/
theorem tokens_scoped [Alphabet] {feed : Feed} {cs : List Char} (h : feed.Supplies (Utf8.encode cs))
    (name : Option String) (trigraphs : Bool) (reserved : List String) :
    ∃ ts : List Token,
      (tokens.run (ofFile (.ofFeed feed name) trigraphs reserved)).1 = .ok (ts, .ok ()) ∧
      ∀ (i : Nat) (t : Token), ts[i]? = some t → Scoped (ts.take i) t := by
  have hturn (ts : List Token) :
      Meets (fun l => Reading ts l.state ∧ ∀ i t, ts[i]? = some t → Scoped (ts.take i) t)
        (Turn.ofOption <$> nextToken : ScanM (Lexer Phases) _) (Turn.Post
          (fun t l => Reading (ts ++ [t]) l.state ∧
            ∀ i u, (ts ++ [t])[i]? = some u → Scoped ((ts ++ [t]).take i) u)
          fun _ _ => ∀ i t, ts[i]? = some t → Scoped (ts.take i) t) := by
    rintro l ⟨hl, hall⟩
    refine Meets.map ((nextToken_scoped ts).post ?_) l hl
    rintro (_ | t) l' hl'
    · exact hall
    · refine ⟨hl'.2, fun i u hu => ?_⟩
      by_cases hi : i < ts.length
      · rw [List.getElem?_append_left hi] at hu
        rw [List.take_append_of_le_length (Nat.le_of_lt hi)]
        exact hall i u hu
      · have hlen : i < (ts ++ [t]).length := (List.getElem?_eq_some_iff.1 hu).1
        have hi' : i = ts.length := by
          rw [List.length_append, List.length_singleton] at hlen
          omega
        rw [hi', List.getElem?_concat_length] at hu
        rw [hi', List.take_left, ← Option.some.inj hu]
        exact hl'.1
  have hread : Gives (Reading []) tokens fun r _ => r.2 = .ok () ∧
      ∀ i t, r.1[i]? = some t → Scoped (r.1.take i) t := by
    intro l hl
    obtain ⟨r, l', hl', u, hr, hq⟩ := Meets.gatherUntil hturn l ⟨hl, by simp⟩
    exact ⟨r, l', hl', hr, hq⟩
  obtain ⟨⟨ts, r⟩, hrun, hr, hall⟩ := ScanM.run_of_gives hread
    (s := ofFile (.ofFeed feed name) trigraphs reserved)
    ⟨⟨_, Phases.ofFile_owes h name trigraphs⟩, rfl⟩
  exact ⟨ts, by rw [hrun, ← hr], hall⟩

/-- A number sign in the middle of a line, and one that is spelled as a digraph and comes after a comment
with a line feed in it. -/
theorem tokens_scoped_digraph :
    Feed.Supplies [.bytes [97, 35, 10, 47], .bytes [42, 10, 42, 47, 37, 58]]
      (Utf8.encode ['a', '#', '\n', '/', '*', '\n', '*', '/', '%', ':']) ∧
    ∃ ts : List Token,
      (tokens.run (ofFile (.ofFeed [.bytes [97, 35, 10, 47], .bytes [42, 10, 42, 47, 37, 58]] none)
        false [])).1 = .ok (ts, .ok ()) ∧
      ∀ (i : Nat) (t : Token), ts[i]? = some t → Scoped (ts.take i) t := by
  have h : Feed.Supplies [.bytes [97, 35, 10, 47], .bytes [42, 10, 42, 47, 37, 58]]
      (Utf8.encode ['a', '#', '\n', '/', '*', '\n', '*', '/', '%', ':']) :=
    .piece 97 [35, 10, 47] (.piece 42 [10, 42, 47, 37, 58] .nil)
  exact ⟨h, tokens_scoped h none false []⟩

end Lexer

end Pretoken
