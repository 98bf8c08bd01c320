import Pretoken.Proofs.Closing

/-!
# Texts joined at the end of a line

If the tokens of a text end with the end of a line, and nothing lies behind the end, then a text that is
put after it is read as it would be read on its own, further down.

* `Text.unifyLineEnds_append`, `Location.after_eq_down`: joined texts and their places.
* `Lexer.exists_reads`: a tape is read to its end.
* `Lexer.Rested`, **`Lexer.rested_of_closesLine`**: after the end of a line nothing has been looked at, and
  nothing is left.
* **`Lexer.tokens_join`**: the tokens of joined texts.
-/

namespace Pretoken

/-! ## Texts and places -/

theorem Text.unifyLineEnds_append {cs : List Char} (h : cs.getLast? ≠ some '\r') (ds : List Char) :
    unifyLineEnds (cs ++ ds) = unifyLineEnds cs ++ unifyLineEnds ds := by
  induction cs using lineEnds_induct with
  | nil => rfl
  | last => exact absurd rfl h
  | pair cs ih =>
    have hcs : cs.getLast? ≠ some '\r' := by
      cases cs with
      | nil => nofun
      | cons c cs => rwa [List.getLast?_cons_cons, List.getLast?_cons_cons] at h
    rw [List.cons_append, List.cons_append, unifyLineEnds, unifyLineEnds, ih hcs, List.cons_append]
  | lone c cs hc ih =>
    rw [List.getLast?_cons_cons] at h
    rw [List.cons_append, List.cons_append, unifyLineEnds_return hc, unifyLineEnds_return hc,
      ← List.cons_append, ih h, List.cons_append]
  | char c cs hc ih =>
    have hcs : cs.getLast? ≠ some '\r' := by
      cases cs with
      | nil => nofun
      | cons d cs => rwa [List.getLast?_cons_cons] at h
    rw [List.cons_append, unifyLineEnds_cons hc, unifyLineEnds_cons hc, ih hcs, List.cons_append]

namespace Location

theorem line_after (l : Location) (cs : List Char) : (l.after cs).line = l.line + cs.count '\n' := by
  induction cs generalizing l with
  | nil => rfl
  | cons c cs ih =>
    rw [after_cons, ih, next]
    by_cases hc : c = '\n'
    · rw [if_pos hc, hc, List.count_cons_self]
      dsimp only
      omega
    · rw [if_neg hc, List.count_cons_of_ne hc]

/-- After a text that ends in a line feed one is in the first column, and below all its lines. -/
theorem after_eq_down {cs : List Char} (h : cs.getLast? = some '\n') :
    origin.after cs = origin.down (cs.count '\n') := by
  obtain ⟨ds, rfl⟩ := List.getLast?_eq_some_iff.1 h
  have hline := line_after origin (ds ++ ['\n'])
  rw [after_append] at hline ⊢
  exact Location.ext hline rfl

end Location

/-! ## Tapes that are read to their ends -/

theorem Glyph.leaves_of_isEof {e : Glyph} (h : e.isEof = true) : e.leaves = leavesAll e.parts := by
  cases e with
  | plain => cases h
  | merged => cases h
  | eof => rfl

theorem Glyph.eq_nil_of_leavesAll {gs : List Glyph} (hp : ∀ g ∈ gs, g.Placed) (h : leavesAll gs = []) :
    gs = [] := by
  cases gs with
  | nil => rfl
  | cons g gs =>
    rw [leavesAll, List.append_eq_nil_iff] at h
    exact absurd h.1 (leaves_ne_nil g (hp g List.mem_cons_self).start)

theorem Glyph.getLast?_of_endsLine {name : Option String} {l : Location} {cs : List Char}
    (h : EndsLine (inscribe name l cs)) : cs.getLast? = some '\n' := by
  obtain ⟨before, last, heq, hlast⟩ := h
  have hspelling := congrArg spelling heq
  rw [spelling_inscribe, spelling_append, spelling_cons (is_iff.1 hlast)] at hspelling
  rw [hspelling]
  exact List.getLast?_concat

namespace Taped

variable {stop : Location}

/-- Where the end of the tape has not been seen and no text is owed, no glyph is left. -/
theorem coming_eq_nil {s : Taped} (h : Owes stop [] s) (hs : s.below.below.spent = false) :
    s.ending = none ∧ s.below.below.coming = [] := by
  obtain ⟨f, ⟨w, e, ⟨gs, name, trailing, hshows, hjoin, hends⟩, hleaves⟩, ⟨⟨hbeside, _⟩, hending⟩, hcalm⟩ := h
  have hnone : s.ending = none := by
    cases he : s.ending with
    | none => rfl
    | some x =>
      have hspent := hcalm.seen (by rw [he]; rfl)
      exact absurd (hs.symm.trans hspent) (by decide)
  have hfnone : f.ending = none := by rw [hending, hnone]; rfl
  rw [hfnone] at hends
  obtain rfl : e = .eof name trailing := hends
  -- the glyphs that were given back, and those of the reader, go back to what is owed
  have hgs : Glyph.leavesAll (Glyph.joinLines [] gs).1 ++ Glyph.leavesAll (Glyph.joinLines [] gs).2 =
      Glyph.leavesAll gs := Glyph.leavesAll_joinLines [] hshows.placed
  rw [hjoin] at hgs
  obtain ⟨raw, ⟨-, cs, hreader, hraw⟩, hplaced, rfl⟩ := hshows
  have hnil : raw = [] := by
    refine Glyph.eq_nil_of_leavesAll hplaced ?_
    rw [← Glyph.leavesAll_phaseOne f.below.enabled raw]
    exact hgs.symm.trans hleaves
  rw [hnil, List.append_eq_nil_iff] at hraw
  obtain rfl : cs = [] := by
    cases cs with
    | nil => rfl
    | cons c cs => cases hraw.2
  refine ⟨hnone, ?_⟩
  obtain ⟨ds, hleads, -, hcoming⟩ := hbeside.coming
  obtain rfl : ds = [] := by
    cases ds with
    | nil => rfl
    | cons d ds =>
      obtain ⟨r, hread, -⟩ := hleads
      obtain ⟨o, r', hread', rfl, -⟩ := LineReader.read_meets [] f.below.below.reader hreader
      rw [hread] at hread'
      cases hread'
  rw [hraw.1] at hcoming
  exact List.map_eq_nil_iff.1 hcoming.symm

end Taped

namespace Lexer

variable {stop : Location} [Alphabet]

/-- A tape is read to its end, and the tokens and the end go back to what was owed. -/
theorem exists_reads {ls : List Glyph} {l : Logged (Lexer Taped)} (h : Taped.Owes stop ls l.state.source) :
    ∃ ts e, Reads ts e l ∧ e.isEof = true ∧ Token.leavesAll ts ++ e.leaves = ls := by
  obtain ⟨⟨ts, _⟩, l₂, htokens, rfl, _, ⟨f, ⟨e, hshows, rfl⟩, hrel, -, -⟩, hls⟩ :=
    (Taped.ledger stop).tokens_gives ls l h
  obtain ⟨l₁, hyields, hnone⟩ := exists_yields htokens
  obtain ⟨_, u, hu, rfl⟩ := eof?_gives e ⟨⟨f, l₂.state.reserved, l₂.state.atLineStart⟩, []⟩ hshows
  -- the file beside the tape has the end `e`, and so has the tape
  have hagree := (Taped.exact stop).eof?.agree (fun t => Taped.exact_not_lost stop t.source)
    (s := ⟨⟨f, l₂.state.reserved, l₂.state.atLineStart⟩, []⟩) (t := l₂) ⟨hrel, rfl, rfl⟩
  rw [hu] at hagree
  match heof : eof? l₂, hagree with
  | .ok none _, ⟨ho, _⟩ => cases ho
  | .ok (some e') l₃, ⟨ho, _⟩ =>
    obtain rfl : e = e' := (Option.some.inj ho).trans e'.down_zero
    exact ⟨ts, e, ⟨l₁, l₂, l₃, hyields, hnone, heof⟩, hshows.isEof, hls⟩

/-- A file is read as the tape of its text is. -/
theorem run_of_taped {feed : Feed} {cs : List Char} (h : feed.Supplies (Utf8.encode cs))
    {name : Option String} {trigraphs : Bool} {reserved : List String} {ts : List Token} {e : Glyph}
    (hreads : Reads ts e ⟨ofSource (Taped.ofText name trigraphs (Text.unifyLineEnds cs)) reserved, []⟩) :
    ((do return (← tokens, ← eof?)).run (ofFile (.ofFeed feed name) trigraphs reserved)).1 =
      .ok ((ts, .ok ()), some e) := by
  have hstart : (Taped.exact (Location.origin.after (Text.unifyLineEnds cs))).lexer.Rel
      (ofFile (.ofFeed feed name) trigraphs reserved)
      (ofSource (Taped.ofText name trigraphs (Text.unifyLineEnds cs)) reserved) :=
    ⟨Taped.exact_ofFeed h name trigraphs, rfl, rfl⟩
  have hfile : Reads (ts.map (Token.down 0)) (e.down 0) ⟨ofFile (.ofFeed feed name) trigraphs reserved, []⟩ :=
    (Taped.exact _).reads (Taped.exact_not_lost _) hstart hreads
  rw [Token.map_down_zero, Glyph.down_zero] at hfile
  exact run_of_reads hfile

/-- The lexer is at the start of a line. The tape is used up, and nobody has noticed. -/
structure Rested (l : Lexer Taped) : Prop where
  unseen : l.source.below.below.spent = false
  coming : l.source.below.below.coming = []
  ending : l.source.ending = none
  atLineStart : l.atLineStart = true

/-- **After a token that closes the last line the lexer is at rest**, if nothing lies behind the end. -/
theorem rested_of_closesLine {name : Option String} {cs : List Char} {l l' : Logged (Lexer Taped)}
    (h : Taped.Owes stop (Glyph.inscribe name .origin cs) l.state.source) {ts : List Token}
    (hy : Yields ts l l') (hall : Token.leavesAll ts = Glyph.inscribe name .origin cs)
    (hlast : ts.getLast?.any Token.closesLine = true) :
    l'.state.Rested ∧ l'.state.reserved = l.state.reserved ∧ cs.getLast? = some '\n' := by
  obtain ⟨t, ht, hcloses⟩ := (Option.any_eq_true _ _).1 hlast
  obtain ⟨before, rfl⟩ := List.getLast?_eq_some_iff.1 ht
  obtain ⟨l₁, hy₁, l₂, hnext, rfl⟩ := yields_append.1 hy
  obtain ⟨⟨owed, howed, -⟩, -⟩ := (Taped.ledger stop).owes_of_yields h hy₁
  obtain ⟨_, _, hnext', hclosed⟩ := nextToken_closed l₁ ⟨owed, howed⟩
  rw [hnext] at hnext'
  cases hnext'
  obtain ⟨⟨hunseen, hends⟩, hstart⟩ := hclosed t rfl hcloses
  obtain ⟨⟨rest, hrest, hpaid⟩, hreserved⟩ := (Taped.ledger stop).owes_of_yields h hy
  obtain rfl : rest = [] := by rwa [hall, List.append_right_eq_self] at hpaid
  obtain ⟨hending, hcoming⟩ := Taped.coming_eq_nil hrest hunseen
  refine ⟨⟨hunseen, hcoming, hending, hstart⟩, hreserved, ?_⟩
  have hline : Glyph.EndsLine (Token.leavesAll (before ++ [t])) := by
    rw [Token.leavesAll_append, Token.leavesAll, Token.leavesAll, List.append_nil]
    exact hends.append _
  rw [hall] at hline
  exact Glyph.getLast?_of_endsLine hline

end Lexer

/-! ## Joined texts -/

namespace Tape

theorem name_of_take (t : Logged Tape) : (ScanM.left (Source.take t)).name = t.state.name := by
  change (ScanM.left (take t)).name = _
  unfold take
  split <;> rfl

theorem name_of_giveBack (g : Glyph) (t : Logged Tape) :
    (ScanM.left (Source.giveBack g t)).name = t.state.name := by
  change (ScanM.left (giveBack g t)).name = _
  unfold giveBack
  split <;> rfl

/-- A file that goes on with the text `cs` where the tape with the given name ends. -/
def goingOn (name : Option String) (stop : Location) (cs : List Char) : Pact File Tape :=
  (pact 0 (.more cs) stop).guard (fun t => t.name = name) (fun t ht => (name_of_take t).trans ht)
    fun g t ht => (name_of_giveBack g t).trans ht

end Tape

namespace Trigraph

variable {σ : Type} [Source σ]

omit [Source σ] in
theorem enabled_of_onBelow {α : Type} (m : ScanM σ α) (s : Logged (Trigraph σ)) :
    (ScanM.left (onBelow m s)).enabled = s.state.enabled := by
  unfold onBelow ScanM.onState onPart
  split <;> rfl

theorem enabled_of_take (s : Logged (Trigraph σ)) :
    (ScanM.left (Source.take s)).enabled = s.state.enabled := by
  change (ScanM.left (take s)).enabled = _
  unfold take
  split <;> exact enabled_of_onBelow _ s

end Trigraph

namespace Taped

variable {name : Option String} {trigraphs : Bool} {cs : List Char}

/-- The phases over a file that goes on where the tape ends. They know the name of the tape, and whether
trigraphs are replaced. -/
def goingOn (name : Option String) (trigraphs : Bool) (stop : Location) (cs : List Char) :
    Pact Phases Taped :=
  ((Tape.goingOn name stop cs).trigraph.guard (fun t => t.enabled = trigraphs)
    (fun t ht => (Trigraph.enabled_of_take t).trans ht)
    fun _ t ht => (Trigraph.enabled_of_onBelow _ t).trans ht).splice

theorem goingOn_ofText {f : File} {ds : List Char} (h : f.reader.Holds (ds ++ cs))
    (hp : f.place = .origin) (hb : f.returned = []) (trigraphs : Bool) :
    (goingOn f.name trigraphs (Location.origin.after ds) cs).Rel (Phases.ofFile f trigraphs)
      (ofText f.name trigraphs ds) :=
  ⟨⟨⟨⟨Tape.beside_ofText (k := 0) (LineReader.Holds.leads ds h) hp hb, rfl⟩, rfl⟩, rfl⟩, rfl⟩

/-- **Where the lexer of the tape is at rest, the file starts anew**, with the text that it goes on with. -/
theorem starts_of_rested {k : Nat} {s : Lexer Phases} {l : Lexer Taped}
    (h : (goingOn name trigraphs (Location.origin.down k) cs).lexer.Rel s l) (hl : l.Rested) :
    (pact k .closed (Location.origin.after cs)).lexer.Rel s
      (.ofSource (ofText name trigraphs cs) l.reserved) := by
  obtain ⟨⟨⟨⟨⟨hbeside, hname⟩, hsame⟩, henabled⟩, hending⟩, hreserved, hstart⟩ := h
  obtain ⟨hreturned, hplace, hreader⟩ := hbeside.after_end hl.coming
  have hfile := Tape.beside_ofText hreader.leads_closed hplace hreturned
  rw [hbeside.name.trans hname] at hfile
  rw [hl.ending] at hending
  exact ⟨⟨⟨hfile, hsame.trans henabled⟩, hending⟩, hreserved, hstart.trans hl.atLineStart⟩

end Taped

namespace Lexer

/-- The joined text looks like the first one as long as nobody sees the end of that, and then like the
second one. -/
theorem yields_joined [Alphabet] {cs ds : List Char} {joined : Feed}
    (hjoined : joined.Supplies (Utf8.encode (cs ++ ds))) (hcs : cs.getLast? ≠ some '\r')
    (hline : (Text.unifyLineEnds cs).getLast? = some '\n') {name : Option String} {trigraphs : Bool}
    {reserved : List String} {ts : List Token} {l : Logged (Lexer Taped)}
    (hy : Yields ts ⟨ofSource (Taped.ofText name trigraphs (Text.unifyLineEnds cs)) reserved, []⟩ l)
    (hl : l.state.Rested) :
    ∃ s, Yields ts ⟨ofFile (.ofFeed joined name) trigraphs reserved, []⟩ s ∧
      (Taped.pact ((Text.unifyLineEnds cs).count '\n') .closed
        (Location.origin.after (Text.unifyLineEnds ds))).lexer.Rel s.state
          (ofSource (Taped.ofText name trigraphs (Text.unifyLineEnds ds)) l.state.reserved) := by
  have hreader : (File.ofFeed joined name).reader.Holds (Text.unifyLineEnds cs ++ Text.unifyLineEnds ds) := by
    rw [← Text.unifyLineEnds_append hcs]
    exact LineReader.ofFeed_holds hjoined
  have hstart : (Taped.goingOn name trigraphs (Location.origin.after (Text.unifyLineEnds cs))
      (Text.unifyLineEnds ds)).lexer.Rel (ofFile (.ofFeed joined name) trigraphs reserved)
      (ofSource (Taped.ofText name trigraphs (Text.unifyLineEnds cs)) reserved) :=
    ⟨Taped.goingOn_ofText hreader rfl rfl trigraphs, rfl, rfl⟩
  have hkept : ¬ (Taped.goingOn name trigraphs (Location.origin.after (Text.unifyLineEnds cs))
      (Text.unifyLineEnds ds)).lexer.Lost l.state :=
    fun hlost => absurd (hl.unseen.symm.trans hlost) (by decide)
  obtain ⟨s, hs, hrel⟩ := Pact.yields _ (s := ⟨_, []⟩) hstart hy hkept
  refine ⟨s, ?_, ?_⟩
  · rw [← Token.map_down_zero ts]
    exact hs
  · rw [Location.after_eq_down hline] at hrel
    exact Taped.starts_of_rested hrel hl

/-- **Reading is compatible with joining texts at the end of a line.** Let the tokens of a text that does
not end in a carriage return end with a line feed, or with a directive up to its line feed, and let the end
have no parts. Then the tokens of this text and any other one after it are its own tokens and those of the
other text, which are further down by the number of its lines, as is the end. Their kinds, values and raw
texts are the same. -/
theorem tokens_join [Alphabet] {cs ds : List Char} {first second joined : Feed}
    (hfirst : first.Supplies (Utf8.encode cs)) (hsecond : second.Supplies (Utf8.encode ds))
    (hjoined : joined.Supplies (Utf8.encode (cs ++ ds))) (hcs : cs.getLast? ≠ some '\r')
    (name : Option String) (trigraphs : Bool) (reserved : List String) {ts : List Token} {e : Glyph}
    (hts : ((do return (← tokens, ← eof?)).run (ofFile (.ofFeed first name) trigraphs reserved)).1 =
      .ok ((ts, .ok ()), some e))
    (hlast : ts.getLast?.any Token.closesLine = true) (he : e.parts = []) :
    let k := (Text.unifyLineEnds cs).count '\n'
    ∃ (us : List Token) (e' : Glyph),
      ((do return (← tokens, ← eof?)).run (ofFile (.ofFeed second name) trigraphs reserved)).1 =
        .ok ((us, .ok ()), some e') ∧
      ((do return (← tokens, ← eof?)).run (ofFile (.ofFeed joined name) trigraphs reserved)).1 =
        .ok ((ts ++ us.map (Token.down k), .ok ()), some (e'.down k)) ∧
      ∀ t ∈ us, ((t.down k).kind = t.kind ∧ (t.down k).value = t.value ∧ (t.down k).raw = t.raw) ∧
        ∀ g ∈ t.glyphs, (g.down k).span? = g.span?.map (Span.down k) := by
  intro k
  have howes := Taped.owes_ofText hfirst name trigraphs
  obtain ⟨ts', e', hreads, heof, hleaves⟩ := exists_reads
    (l := ⟨ofSource (Taped.ofText name trigraphs (Text.unifyLineEnds cs)) reserved, []⟩) howes
  obtain ⟨rfl, rfl⟩ : ts' = ts ∧ e' = e := by
    rw [run_of_taped hfirst hreads] at hts
    cases hts
    exact ⟨rfl, rfl⟩
  rw [Glyph.leaves_of_isEof heof, he, Glyph.leavesAll, List.append_nil] at hleaves
  obtain ⟨l, _, _, hyields, -, -⟩ := hreads
  obtain ⟨hrested, hreserved, hline⟩ := rested_of_closesLine howes hyields hleaves hlast
  obtain ⟨s, hs, hnext⟩ := yields_joined hjoined hcs hline hyields hrested
  rw [hreserved] at hnext
  obtain ⟨us, e₂, hreads₂, -, -⟩ := exists_reads
    (l := ⟨ofSource (Taped.ofText name trigraphs (Text.unifyLineEnds ds)) reserved, []⟩)
    (Taped.owes_ofText hsecond name trigraphs)
  have hrest : Reads (us.map (Token.down k)) (e₂.down k) s :=
    (Taped.pact k .closed _).reads (fun _ => id) hnext hreads₂
  refine ⟨us, e₂, run_of_taped hsecond hreads₂, run_of_reads (reads_append hs hrest), ?_⟩
  intro t _
  exact ⟨⟨t.kind_down k, t.value_down k, t.raw_down k⟩, fun g _ => g.span?_down k⟩

/-- A directive and its line end, and a letter after them; the line end is torn apart by the pieces. -/
theorem tokens_join_directive :
    let ts : List Token := [⟨[.plain '#' none .origin], .directive,
      [⟨[.plain 'a' none (Location.origin.right 1)], .identifier, []⟩,
        ⟨[.plain '\n' none (Location.origin.right 2)], .directiveEnd, []⟩]⟩]
    Feed.Supplies [.bytes [35, 97, 13, 10]] (Utf8.encode ['#', 'a', '\r', '\n']) ∧
    Feed.Supplies [.bytes [98]] (Utf8.encode ['b']) ∧
    Feed.Supplies [.bytes [35, 97, 13], .bytes [10, 98]]
      (Utf8.encode (['#', 'a', '\r', '\n'] ++ ['b'])) ∧
    ((do return (← tokens, ← eof?)).run (ofFile (.ofFeed [.bytes [35, 97, 13, 10]] none) true [])).1 =
      .ok ((ts, .ok ()), some (.eof none [])) ∧
    ts.getLast?.any Token.closesLine = true ∧
    ∃ (us : List Token) (e : Glyph),
      ((do return (← tokens, ← eof?)).run (ofFile (.ofFeed [.bytes [98]] none) true [])).1 =
        .ok ((us, .ok ()), some e) ∧
      ((do return (← tokens, ← eof?)).run
        (ofFile (.ofFeed [.bytes [35, 97, 13], .bytes [10, 98]] none) true [])).1 =
        .ok ((ts ++ us.map (Token.down 1), .ok ()), some (e.down 1)) ∧
      ∀ t ∈ us, ((t.down 1).kind = t.kind ∧ (t.down 1).value = t.value ∧ (t.down 1).raw = t.raw) ∧
        ∀ g ∈ t.glyphs, (g.down 1).span? = g.span?.map (Span.down 1) := by
  intro ts
  have hfirst : Feed.Supplies [.bytes [35, 97, 13, 10]] (Utf8.encode ['#', 'a', '\r', '\n']) :=
    Feed.supplies_single _
  have hsecond : Feed.Supplies [.bytes [98]] (Utf8.encode ['b']) := Feed.supplies_single _
  have hjoined : Feed.Supplies [.bytes [35, 97, 13], .bytes [10, 98]]
      (Utf8.encode (['#', 'a', '\r', '\n'] ++ ['b'])) := .piece 35 [97, 13] (.piece 10 [98] .nil)
  have hts : ((do return (← tokens, ← eof?)).run
      (ofFile (.ofFeed [.bytes [35, 97, 13, 10]] none) true [])).1 =
        .ok ((ts, .ok ()), some (.eof none [])) := by decide +kernel
  have hlast : ts.getLast?.any Token.closesLine = true := by decide
  exact ⟨hfirst, hsecond, hjoined, hts, hlast,
    tokens_join hfirst hsecond hjoined (by decide) none true [] hts hlast rfl⟩

end Lexer

end Pretoken
