import Pretoken.Proofs.Munching
import Pretoken.Proofs.Probing
import Pretoken.Proofs.Reserving
import Pretoken.Proofs.Splicing

/-!
# Tokens that stand for themselves

The value of a token is a token again, of the same kind: what has been replaced or spliced in it is gone for good,
and nothing in it depends on what followed.

* `Text.Single`: characters that are one token of ordinary text.
* `Text.single_of_munch`: the value of a token is such a text, even if it was written with digraphs.
* `Glyph.Unified`: glyphs that show no carriage return.
* `Lexer.Fluent.alone`: a lexer gives such tokens, and directives.
* `Lexer.tokens_single`: a name, a space and a single token are three tokens.
* **`Lexer.tokens_relex`**: so are a name, a space and the value of any token that is not white space, a comment or a
  directive.
-/

namespace Pretoken

open Glyph (spelling startsSplice joinLines)

theorem TokenKind.isSpace_eq_false {k : TokenKind} (h : k ≠ .delimiter) (h' : k ≠ .comment) : k.isSpace = false := by
  cases k <;> first | rfl | contradiction

/-! ## Single tokens -/

namespace Text

variable [Alphabet]

/-- The characters are one token of ordinary text, which is of the kind `k` and no digraph. -/
def Single (k : TokenKind) : List Char → Prop
  | [] => False
  | c :: cs => Table.text.munch c (c :: cs) = ⟨k, cs.length + 1, []⟩

variable {k : TokenKind} {c : Char} {cs : List Char}

theorem single_digraph (d : Digraph) : Single .punctuator [d.primary] := by
  cases d <;> rfl

theorem single_sharps : Single .punctuator ['#', '#'] := (rfl)

/-- What is left of a text when all after its first token is cut off. -/
theorem single_take {m : Munch} (hm : Table.text.munch c (c :: cs) = m) (hp : m.pairs = [])
    (hlen : m.length ≤ cs.length + 1) : Single m.kind ((c :: cs).take m.length) := by
  have hle : 1 ≤ (Table.text.munch c (c :: cs)).length := Table.le_munch Table.sound_text
  have htake := Table.munch_take Table.sound_text hle (Nat.le_refl _)
  rw [hm] at hle htake
  obtain ⟨n, hn⟩ := Nat.exists_eq_add_of_le' hle
  rw [hn] at hlen htake ⊢
  rw [List.take_succ_cons] at htake ⊢
  rw [Single, htake, List.length_take, Nat.min_eq_left (Nat.le_of_succ_le_succ hlen), ← hn, ← hp]

/-- **The value of a token is a single token**, whatever followed it. -/
theorem single_of_munch {g : Glyph} {w : List Glyph} (hw : ∀ x ∈ g :: w, x.Placed) (hg : g.value? = some c)
    {m : Munch} (hm : Table.text.munch c (spelling (g :: w)) = m) (hlen : m.length ≤ (g :: w).length) :
    Single m.kind (spelling (m.glyphs (g :: w))) := by
  obtain ⟨hpaired, hkind⟩ := Table.munch_paired (spelling (g :: w)) c Table.sound_text
  rw [hm] at hpaired hkind
  unfold Munch.glyphs
  split
  · next hp =>
    rw [Glyph.spelling_take hw]
    rw [← Glyph.length_spelling hw] at hlen
    rw [Glyph.spelling_cons hg] at hm hlen ⊢
    exact single_take hm hp hlen
  · next hp =>
    -- what digraphs stand for is written without them the second time
    obtain ⟨heq, hds⟩ := hpaired.resolve_left hp
    rw [Table.pairKinds_text _ (hkind hp), Munch.spelling_pairUp (heq ▸ hlen)]
    rcases hds with ⟨d, hd⟩ | hd
    · rw [hd]
      exact single_digraph d
    · rw [hd]
      exact single_sharps

theorem Single.kind_eq (h : Single k (c :: cs)) : (Table.text.munch c (c :: cs)).kind = k := congrArg Munch.kind h

/-- A single token that is no white space has no line feed in it. -/
theorem Single.newline_notMem {v : List Char} (h : Single k v) (hk : k.isSpace = false) : '\n' ∉ v := by
  cases v with
  | nil => exact h.elim
  | cons c cs =>
    rw [← h.kind_eq] at hk
    have hc : c ≠ '\n' := by
      rintro rfl
      rw [Table.munch_of_lookup Table.breaks_text.lineFeed] at hk
      cases hk
    have hlead : '\n' ∉ (c :: cs).take 1 := by simpa using hc.symm
    have hcomment : (Table.text.munch c (c :: cs)).kind ≠ .comment := by
      intro he
      rw [he] at hk
      cases hk
    have hfree := Table.newline_notMem Table.sound_text hlead hcomment
    rw [show (Table.text.munch c (c :: cs)).length = cs.length + 1 from congrArg Munch.length h] at hfree
    simpa using hfree

theorem Single.isBlank_eq_false (h : Single k (c :: cs)) (hk : k.isSpace = false) : isBlank c = false := by
  rw [← h.kind_eq] at hk
  rw [Bool.eq_false_iff]
  intro hb
  have hlookup : Table.text.lookup c = some (.finish (.routine .blanks)) := by
    simp only [isBlank, Bool.or_eq_true, beq_iff_eq] at hb
    rcases hb with ((rfl | rfl) | rfl) | rfl <;> rfl
  rw [Table.munch_of_lookup hlookup] at hk
  cases hk

theorem munch_name (cs : List Char) : Table.text.munch 'x' ('x' :: ' ' :: cs) = ⟨.identifier, 1, []⟩ := by
  have hlookup : Table.text.lookup 'x' = some (.finish Table.identifier) := rfl
  rw [Table.munch_of_lookup hlookup]
  rfl

theorem munch_space (hc : isBlank c = false) (cs : List Char) :
    Table.text.munch ' ' (' ' :: c :: cs) = ⟨.delimiter, 1, []⟩ := by
  have hlookup : Table.text.lookup ' ' = some (.finish (.routine .blanks)) := rfl
  rw [Table.munch_of_lookup hlookup]
  simp [Action.munch, Rule.munch, Routine.munch, runLength, reach, hc]

end Text

/-! ## Glyphs without line feeds and carriage returns -/

namespace Glyph

theorem startsSplice_of_notMem {gs : List Glyph} (h : '\n' ∉ spelling gs) : startsSplice gs = false := by
  rcases gs with _ | ⟨b, _ | ⟨n, gs⟩⟩
  · rfl
  · rfl
  · rw [startsSplice, Bool.and_eq_false_iff]
    refine .inr (Bool.eq_false_iff.2 fun hn => h ?_)
    exact List.mem_filterMap.2 ⟨n, by simp, is_iff.1 hn⟩

theorem joinLines_of_notMem {gs : List Glyph} (h : '\n' ∉ spelling gs) : joinLines [] gs = (gs, []) := by
  induction gs with
  | nil => rfl
  | cons g gs ih =>
    have htail : '\n' ∉ spelling gs := fun hn => h (List.filterMap_subset _ (List.subset_cons_self g gs) hn)
    rw [joinLines_cons (startsSplice_of_notMem h), ih htail, attach_nil]

/-- The glyph shows a character other than a carriage return. -/
def Unified (g : Glyph) : Prop := g.Placed ∧ g.value? ≠ some '\r'

theorem closed_unified : Closed Unified where
  placed h := h.1
  plain name place hc := ⟨placed_plain _ name place, fun h => hc (Option.some.inj h)⟩
  merged hne h hc := by
    refine ⟨placed_merged _ hne fun g hg => (h g hg).1, fun hv => ?_⟩
    obtain rfl := Option.some.inj hv
    rcases hc with hc | ⟨g, hg, hc⟩
    · exact absurd hc (by decide)
    · exact (h g hg).2 hc

theorem return_notMem {gs : List Glyph} (h : ∀ g ∈ gs, g.Unified) : '\r' ∉ spelling gs := by
  intro hr
  obtain ⟨g, hg, hv⟩ := List.mem_filterMap.1 hr
  exact (h g hg).2 hv

end Glyph

/-! ## Reading a token -/

namespace Phases

variable {g e : Glyph} {w : List Glyph} {c : Char}

/-- **The phases give the token that the table makes of what they show.** Unless a line feed is to come, they show
what is left. -/
theorem readToken_munch [Alphabet] {s : Logged (Scanner Phases)} (hs : Ready (g :: w) e s.state)
    (hg : g.value? = some c) {m : Munch} (hm : Table.text.munch c (spelling (g :: w)) = m) :
    ∃ s', Scanner.readToken .text s = .ok (some ⟨m.glyphs (g :: w), m.kind, []⟩) s' ∧ m.length ≤ (g :: w).length ∧
      ('\n' ∉ spelling (g :: w) → s'.state.source.Shows ((g :: w).drop m.length) e) := by
  obtain ⟨o, s', r', hs', hr', -, -, hq⟩ := readToken_shadow Table.fits_text (s := s)
    (r := ⟨⟨.ofGlyphs (g :: w) none, .empty⟩, []⟩) hs ⟨rfl, rfl⟩
  obtain ⟨o', r'', hr'', rfl, hlen, hready⟩ := Replay.readToken_munch Table.sound_text hs.2.placed hg hm
    ⟨⟨.ofGlyphs (g :: w) none, .empty⟩, []⟩ ⟨rfl, rfl⟩
  cases hr'.symm.trans hr''
  refine ⟨s', hs', hlen, fun hfree => ?_⟩
  have hrest : startsSplice r'.state.source.coming = false := by
    rw [hready.2]
    exact Glyph.startsSplice_of_notMem fun hn => hfree (List.filterMap_subset _ (List.drop_subset _ _) hn)
  rw [← hready.2]
  dsimp only at hq
  split at hq
  · rcases hq with ⟨-, hshows⟩ | ⟨hsplice, -⟩
    · exact hshows
    · rw [hrest] at hsplice
      cases hsplice
  · exact hq

end Phases

namespace Lexer

variable {l l' : Logged (Lexer Phases)} {c : Char} {cs : List Char} {t : Token} {k : TokenKind} {n : Nat}

/-- The lexer is about to split the characters `cs`. -/
def Shown (cs : List Char) (l : Lexer Phases) : Prop := ∃ w e, l.source.Shows w e ∧ spelling w = cs

/-- The next token of a text without line feeds, where no directive can begin. -/
theorem nextToken_munch [Alphabet] (hs : Shown (c :: cs) l.state) (hfree : '\n' ∉ c :: cs)
    (hm : Table.text.munch c (c :: cs) = ⟨k, n, []⟩) (ho : k = .punctuator → l.state.atLineStart = false) :
    ∃ t l', nextToken l = .ok (some (t.reserve l.state.reserved)) l' ∧ t.kind = k ∧
      t.value = String.ofList ((c :: cs).take n) ∧ Shown ((c :: cs).drop n) l'.state ∧
      l'.state.reserved = l.state.reserved ∧ l'.state.atLineStart = startAfter t l.state.atLineStart := by
  obtain ⟨w, e, hs, hw⟩ := hs
  obtain ⟨g, w, rfl, hg, -⟩ := Glyph.exists_of_spelling hs.placed hw
  rw [← hw] at hm hfree
  obtain ⟨s', hread, -, hshows⟩ := Phases.readToken_munch (s := ⟨.ofSource l.state.source, l.log⟩) ⟨rfl, hs⟩ hg hm
  have hplain : ¬ Opens ⟨(g :: w).take n, k, []⟩ l.state := fun h =>
    Bool.false_ne_true ((ho h.1).symm.trans h.2.2)
  refine ⟨_, _, nextToken_plain hread hplain, rfl, ?_, ⟨_, e, hshows hfree, ?_⟩, rfl, rfl⟩
  · rw [← hw, ← Glyph.spelling_take hs.placed]
    rfl
  · rw [← hw, Glyph.spelling_drop hs.placed]

theorem nextToken_end [Alphabet] (hs : Shown [] l.state) : ∃ l', nextToken l = .ok none l' := by
  obtain ⟨w, e, hs, hw⟩ := hs
  obtain rfl : w = [] := by
    rw [← List.length_eq_zero_iff, ← Glyph.length_spelling hs.placed, hw]
    rfl
  obtain ⟨g, u, hu, rfl, -⟩ := Phases.take_nil ⟨l.state.source, l.log⟩ hs
  exact ⟨_, nextToken_of_end hu hs.isEof⟩

/-- A text without carriage returns, trigraphs and splices is split as it is. -/
theorem shown_ofFile {feed : Feed} (h : feed.Supplies (Utf8.encode cs)) (hr : '\r' ∉ cs) (hn : '\n' ∉ cs)
    (name : Option String) (reserved : List String) : Shown cs (ofFile (.ofFeed feed name) false reserved) := by
  have hunified : Glyph.phaseOne false (Glyph.inscribe name .origin (Text.unifyLineEnds cs)) =
      Glyph.inscribe name .origin cs := congrArg (Glyph.inscribe name .origin) (Text.unifyLineEnds_of_notMem hr)
  refine ⟨_, _, Phases.ofFile_shows h name false hunified, ?_⟩
  rw [Glyph.joinLines_of_notMem (by rwa [Glyph.spelling_inscribe]), Glyph.spelling_inscribe]

/-- **A name, a space and a single token are three tokens.** -/
theorem tokens_single [Alphabet] {v : List Char} (hv : Text.Single k v) (hk : k.isSpace = false) (hr : '\r' ∉ v)
    {feed : Feed} (h : feed.Supplies (Utf8.encode ('x' :: ' ' :: v))) (name : Option String) (reserved : List String) :
    ∃ t₁ t₂ t₃ : Token, (tokens.run (ofFile (.ofFeed feed name) false reserved)).1 =
        .ok ([t₁, t₂, t₃.reserve reserved], .ok ()) ∧ t₃.kind = k ∧ t₃.value = String.ofList v := by
  cases v with
  | nil => exact hv.elim
  | cons c cs =>
    have hfree := hv.newline_notMem hk
    have hshown := shown_ofFile h (by simpa using hr) (by simpa using hfree) name reserved
    obtain ⟨t₁, l₁, h₁, hk₁, -, hs₁, hr₁, ha₁⟩ := nextToken_munch (l := ⟨_, []⟩) hshown (by simpa using hfree)
      (Text.munch_name _) (fun hp => by cases hp)
    obtain ⟨t₂, l₂, h₂, hk₂, hv₂, hs₂, hr₂, ha₂⟩ := nextToken_munch hs₁ (by simpa using hfree)
      (Text.munch_space (hv.isBlank_eq_false hk) cs) (fun hp => by cases hp)
    -- after a name no number sign begins a directive
    have hstart : l₂.state.atLineStart = false := by
      rw [ha₂, ha₁, startAfter, startAfter, hk₁, hk₂, hv₂]
      rfl
    obtain ⟨t₃, l₃, h₃, hk₃, hv₃, hs₃, hr₃, -⟩ := nextToken_munch hs₂ hfree hv fun _ => hstart
    rw [List.drop_succ_cons, List.drop_length] at hs₃
    obtain ⟨l₄, h₄⟩ := nextToken_end hs₃
    rw [hr₂, hr₁] at h₃
    have hall := tokens_some h₁ (tokens_some h₂ (tokens_some h₃ (tokens_none h₄)))
    refine ⟨_, _, t₃, congrArg Prod.fst (ScanM.run_of_ok hall), hk₃, ?_⟩
    rw [hv₃, List.take_succ_cons, List.take_length]

/-! ## Whole texts -/

/-- What the phases keep up: they show no carriage return. -/
def unified : Upkeep Phases := Phases.upkeep Glyph.closed_unified LineReader.lasts_true

/-- A lexer that will read its text to the end. -/
structure Fluent (reserved : List String) (l : Lexer Phases) : Prop where
  owes : ∃ ls, l.source.Owes ls
  fine : unified.Fine l.source
  reserved : l.reserved = reserved

theorem fluent_ofFile {feed : Feed} (h : feed.Supplies (Utf8.encode cs)) (name : Option String) (trigraphs : Bool)
    (reserved : List String) : Fluent reserved (ofFile (.ofFeed feed name) trigraphs reserved) where
  owes := ⟨_, Phases.ofFile_owes h name trigraphs⟩
  fine := Phases.fine_ofFile Glyph.closed_unified LineReader.lasts_true trivial name trigraphs
  reserved := rfl

variable {reserved : List String}

section

variable [Alphabet]

theorem Fluent.next (h : Fluent reserved l.state) (ht : nextToken l = .ok (some t) l') : Fluent reserved l'.state := by
  obtain ⟨ls, hls⟩ := h.owes
  obtain ⟨_, _, heq, hpaid⟩ := Phases.ledger.nextToken_gives ls l hls
  cases ht.symm.trans heq
  obtain ⟨rest, hrest, -⟩ := hpaid
  exact ⟨⟨rest, hrest⟩, (unified.nextToken.ok h.fine ht).2,
    (Phases.ledger.reserved_of_nextToken hls ht).trans h.reserved⟩

/-- A token other than a directive is what was read, perhaps marked as a reserved word. -/
theorem Fluent.exists_read (h : Fluent reserved l.state) (ht : nextToken l = .ok (some t) l')
    (hk : t.kind ≠ .directive) :
    ∃ u s, Scanner.readToken .text ⟨.ofSource l.state.source, l.log⟩ = .ok (some u) s ∧ t = u.reserve reserved := by
  obtain ⟨ls, hls⟩ := h.owes
  obtain ⟨o, s, hread, -, hq⟩ := Phases.ledger.readToken Table.fits_text ls ⟨.ofSource l.state.source, l.log⟩ ⟨rfl, hls⟩
  cases o with
  | none => cases ht.symm.trans (nextToken_none hread)
  | some u =>
    obtain ⟨-, rest, hrest, -⟩ := hq
    by_cases hopens : Opens u l.state
    · obtain ⟨cs, v, hv, -⟩ := Phases.ledger.readDirective_gives rest l.state.reserved
        ⟨.ofSource s.state.source, s.log⟩ ⟨rfl, hrest⟩
      cases ht.symm.trans (nextToken_directive hread hopens hv)
      exact absurd rfl hk
    · cases ht.symm.trans (nextToken_plain hread hopens)
      exact ⟨u, s, hread, by rw [h.reserved]⟩

/-- The token shows a single token without carriage returns. If it is a reserved word, that is an identifier. -/
def Alone (reserved : List String) (t : Token) : Prop :=
  ∃ u : Token, t = u.reserve reserved ∧ Text.Single u.kind (spelling u.glyphs) ∧ '\r' ∉ spelling u.glyphs

/-- **A token is a single token** unless it is a directive. -/
theorem Fluent.alone (h : Fluent reserved l.state) (ht : nextToken l = .ok (some t) l') (hk : t.kind ≠ .directive) :
    Alone reserved t := by
  obtain ⟨u, s, hread, rfl⟩ := h.exists_read ht hk
  have hmade : unified.Made (u.reserve reserved) := ((unified.nextToken.ok h.fine ht).1 _ rfl).1
  refine ⟨u, rfl, ?_, Glyph.return_notMem fun g hg => hmade.2 g (by rwa [Token.glyphs_reserve])⟩
  obtain ⟨_, w, e, hs, -⟩ := h.owes
  cases w with
  | nil =>
    obtain ⟨l₂, hnone⟩ := nextToken_end ⟨[], e, hs, rfl⟩
    cases ht.symm.trans hnone
  | cons g w =>
    obtain ⟨c, hc⟩ := (hs.placed g List.mem_cons_self).exists_value
    obtain ⟨s', hread', hlen, -⟩ := Phases.readToken_munch (s := ⟨.ofSource l.state.source, l.log⟩) ⟨rfl, hs⟩ hc rfl
    cases hread.symm.trans hread'
    exact Text.single_of_munch hs.placed hc rfl hlen

theorem Fluent.of_yields {ts : List Token} (h : Fluent reserved l.state) (hy : Yields ts l l') :
    ∀ t ∈ ts, t.kind ≠ .directive → Alone reserved t := by
  induction ts generalizing l with
  | nil => exact fun t ht => absurd ht List.not_mem_nil
  | cons t ts ih =>
    obtain ⟨l₁, h₁, hy⟩ := hy
    exact List.forall_mem_cons.2 ⟨h.alone h₁, ih (h.next h₁) hy⟩

/-- **Tokens stand for themselves.** Whatever the pieces in which the bytes of a text arrive, all tokens are read.
A name, a space and the value of one of them, if that is not white space, a comment or a directive, are again three
tokens, of which the last has the same kind and the same value. -/
theorem tokens_relex {feed : Feed} {cs : List Char} (h : feed.Supplies (Utf8.encode cs)) (name : Option String)
    (trigraphs : Bool) (reserved : List String) :
    ∃ ts : List Token, (tokens.run (ofFile (.ofFeed feed name) trigraphs reserved)).1 = .ok (ts, .ok ()) ∧
      ∀ t ∈ ts, t.kind ∉ [.delimiter, .comment, .directive] →
        ∀ (feed' : Feed) (name' : Option String), feed'.Supplies (Utf8.encode ("x " ++ t.value).toList) →
          ∃ t₁ t₂ t₃ : Token,
            (tokens.run (ofFile (.ofFeed feed' name') false reserved)).1 = .ok ([t₁, t₂, t₃], .ok ()) ∧
              t₃.kind = t.kind ∧ t₃.value = t.value := by
  have hfluent := fluent_ofFile h name trigraphs reserved
  obtain ⟨ls, hls⟩ := hfluent.owes
  obtain ⟨ts, l, hts⟩ := Ledger.tokens_ok (L := Phases.ledger)
    (l := ⟨ofFile (.ofFeed feed name) trigraphs reserved, []⟩) hls
  obtain ⟨l', hy, -⟩ := exists_yields hts
  refine ⟨ts, congrArg Prod.fst (ScanM.run_of_ok hts), fun t ht hkind feed' name' h' => ?_⟩
  simp only [List.mem_cons, List.not_mem_nil, or_false, not_or] at hkind
  obtain ⟨u, rfl, hsingle, hr⟩ := hfluent.of_yields hy t ht hkind.2.2
  have hspace : u.kind.isSpace = false := by
    rw [← Token.isSpace_reserve reserved]
    exact TokenKind.isSpace_eq_false hkind.1 hkind.2.1
  have htext : ("x " ++ (u.reserve reserved).value).toList = 'x' :: ' ' :: spelling u.glyphs := by
    simp [Token.value]
  rw [htext] at h'
  obtain ⟨t₁, t₂, t₃, hrun, hk, hv⟩ := tokens_single hsingle hspace hr h' name' reserved
  have hsame : t₃.SameText u := ⟨hk, hv⟩
  exact ⟨t₁, t₂, _, hrun, hsame.reserve reserved⟩

end

/-- Two number signs that are written as digraphs, with a splice between the characters of the second one of which
the backslash is a trigraph. -/
theorem tokens_relex_digraph :
    Feed.Supplies [.bytes [97, 37, 58, 37, 63], .bytes [63, 47, 10, 58]]
      (Utf8.encode ['a', '%', ':', '%', '?', '?', '/', '\n', ':']) ∧
    ∃ ts : List Token,
      (tokens.run (ofFile (.ofFeed [.bytes [97, 37, 58, 37, 63], .bytes [63, 47, 10, 58]] none) true ["a"])).1 =
        .ok (ts, .ok ()) ∧
      ∀ t ∈ ts, t.kind ∉ [.delimiter, .comment, .directive] →
        ∀ (feed' : Feed) (name' : Option String), feed'.Supplies (Utf8.encode ("x " ++ t.value).toList) →
          ∃ t₁ t₂ t₃ : Token,
            (tokens.run (ofFile (.ofFeed feed' name') false ["a"])).1 = .ok ([t₁, t₂, t₃], .ok ()) ∧
              t₃.kind = t.kind ∧ t₃.value = t.value := by
  have h : Feed.Supplies [.bytes [97, 37, 58, 37, 63], .bytes [63, 47, 10, 58]]
      (Utf8.encode ['a', '%', ':', '%', '?', '?', '/', '\n', ':']) :=
    .piece 97 [37, 58, 37, 63] (.piece 63 [47, 10, 58] .nil)
  exact ⟨h, tokens_relex h none true ["a"]⟩

end Lexer

end Pretoken
