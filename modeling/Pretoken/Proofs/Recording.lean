import Pretoken.Proofs.Booking

/-!
# Every substitution is recorded once

The log of a run over a whole text tells of each trigraph that was replaced and of each splice that was made, once.
However often a glyph was looked at and given back, the log and the glyphs in the tokens agree in the end.

* `Phases.Recorded`: the log is in balance with what the tokens so far are made of, and with all that is to come.
* `Phases.readToken_recorded`, `Phases.readDirective_recorded`, `Lexer.nextToken_recorded`: tokens take over what
  they are made of.
* **`Lexer.tokens_eof_log`**: what the log tells is what is behind the tokens and the end.
-/

namespace Pretoken

open Custody (At)

namespace Token

theorem nodesAll_append (ts us : List Token) : nodesAll (ts ++ us) = nodesAll ts ++ nodesAll us := by
  induction ts with
  | nil => rfl
  | cons t ts ih => rw [List.cons_append, nodesAll, nodesAll, ih, List.append_assoc]

@[simp] theorem nodesAll_singleton (t : Token) : nodesAll [t] = t.nodes := by simp [nodesAll]

/-- What a token is made of does not depend on its kind. -/
theorem nodes_congr {t u : Token} (hg : t.glyphs = u.glyphs) (hc : t.children = u.children) : t.nodes = u.nodes := by
  rw [nodes_eq, nodes_eq, hg, hc]

end Token

namespace Phases

variable {name : Option String} {ns : List Glyph}

/-- The log is in balance with glyphs that are made of `ns`, all that is left, and the end. -/
def Recorded (name : Option String) (ns : List Glyph) (s : Logged Phases) : Prop :=
  ∃ front, Glyph.nodesAll front = ns ∧ Booked name front s

theorem Recorded.other {s : Logged Phases} (hs : Recorded name ns s) {e : Event} (ht : e.trigraph? = none)
    (hp : e.isSplice = false) : Recorded name ns { s with log := e :: s.log } := by
  obtain ⟨front, rfl, -, raw, hf, hu, hb⟩ := hs
  exact ⟨front, rfl, rfl, raw, hf, hu, hb.other ht hp⟩

/-- **A token takes over what it is made of.** -/
theorem readToken_recorded [Alphabet] {table : Table} (hf : table.fits = true) :
    Ensures (At (Recorded name ns) []) (Scanner.readToken table) fun o s =>
      (∀ t ∈ o, t.children = []) ∧ At (Recorded name (ns ++ Token.nodesAll o.toList)) [] s := by
  rintro s ⟨hd, front, rfl, hs⟩ o s' h
  have hread := (custody name front).readToken (.inr hf) s ⟨hd, by simpa [custody] using hs⟩ o s' h
  cases o with
  | none =>
    obtain ⟨hd', e, he⟩ := hread
    refine ⟨nofun, hd', front, ?_, by simpa using he.booked⟩
    rw [Option.toList_none, Token.nodesAll, List.append_nil]
  | some t =>
    obtain ⟨hc, gs, -, hcovers, hd', -, raw, hr, hu, hb⟩ := hread
    refine ⟨?_, hd', front ++ t.glyphs, ?_, rfl, raw, hr, hu, ?_⟩
    · rintro _ ⟨⟩
      exact hc
    · rw [Option.toList_some, Token.nodesAll, Token.nodes_eq, hc, Glyph.nodesAll_append]
      simp [Token.nodesAll]
    · rw [List.append_assoc _ raw] at hb ⊢
      exact hb.covers hcovers

/-! ## Directives -/

/-- The tokens of the line are `ts`, and the log is in balance with `ns` and all that is left. -/
def LineRecorded (name : Option String) (ns : List Glyph) (ts : List Token) (s : Logged (DirectiveLine Phases)) :
    Prop :=
  s.state.children = ts ∧ At (Recorded name ns) [] ⟨s.state.scanner, s.log⟩

variable {ts : List Token}

theorem emit_recorded {e : Event} (h : e.trigraph? = none ∧ e.isSplice = false) :
    Ensures (LineRecorded name ns ts) (ScanM.emit e) fun _ => LineRecorded name ns ts := by
  rintro s ⟨hts, hd, hs⟩ _ _ ⟨⟩
  exact ⟨hts, hd, hs.other h.1 h.2⟩

/-- What is noted about a token is not about substitutions. -/
theorem noteAll_recorded (place : LinePlace) (t : Token) :
    Ensures (LineRecorded name ns ts) (DirectiveLine.noteAll (place.note? t)) fun _ => LineRecorded name ns ts := by
  unfold LinePlace.note?
  repeat' split
  · exact emit_recorded ⟨rfl, rfl⟩
  · exact emit_recorded ⟨rfl, rfl⟩
  · exact .pure _ fun s hs => hs

/-- A token takes its place in the line. -/
theorem lineTurn_recorded [Alphabet] {reserved : List String} (place : LinePlace) :
    Ensures (fun s => ∃ ts, LineRecorded name (ns ++ Token.nodesAll ts) ts s) (DirectiveLine.lineTurn reserved place)
      (Turn.Post (fun _ s => ∃ ts, LineRecorded name (ns ++ Token.nodesAll ts) ts s)
        fun _ s => ∃ ts, LineRecorded name (ns ++ Token.nodesAll ts) ts s) := by
  refine .of_exists fun ts => ?_
  have hscan : Ensures (At (Recorded name (ns ++ Token.nodesAll ts)) [])
      (Option.map (Token.reserve reserved) <$> Scanner.readToken place.table)
      fun o => At (Recorded name (ns ++ Token.nodesAll ts ++ Token.nodesAll o.toList)) [] := by
    refine .map ((readToken_recorded place.fits).post ?_)
    rintro o t ⟨-, ht⟩
    cases o with
    | none => exact ht
    | some u => simpa [Token.nodes_congr (Token.glyphs_reserve reserved u) (Token.children_reserve reserved u)] using ht
  have hread : Ensures (LineRecorded name (ns ++ Token.nodesAll ts) ts) (DirectiveLine.readToken reserved place.table)
      fun o => LineRecorded name (ns ++ Token.nodesAll ts ++ Token.nodesAll o.toList) ts := by
    unfold DirectiveLine.readToken
    exact hscan.onState (fun _ hs => hs.2) fun _ _ _ hs ht => ⟨hs.1, ht⟩
  refine hread.bind fun o => ?_
  cases o with
  | none =>
    refine (emit_recorded (by cases place <;> exact ⟨rfl, rfl⟩)).bind fun _ => .pure _ fun s hs => ⟨ts, ?_⟩
    rwa [Option.toList_none, Token.nodesAll, List.append_nil] at hs
  | some t =>
    have hpush : Ensures (LineRecorded name (ns ++ Token.nodesAll ts ++ Token.nodesAll [t]) ts)
        (DirectiveLine.push (place.mark t))
        fun _ s => ∃ ts, LineRecorded name (ns ++ Token.nodesAll ts) ts s := by
      rintro s ⟨rfl, hs⟩ _ _ ⟨⟩
      refine ⟨s.state.children ++ [place.mark t], List.reverse_cons, ?_⟩
      rw [Token.nodesAll_append, ← List.append_assoc, Token.nodesAll_singleton,
        Token.nodes_congr (place.glyphs_mark t) (place.children_mark t), ← Token.nodesAll_singleton]
      exact hs
    refine (noteAll_recorded place t).bind fun _ => hpush.bind fun _ => .pure _ fun s hs => ?_
    cases place.next t <;> exact hs

/-- **So do the children of a directive.** -/
theorem readDirective_recorded [Alphabet] (reserved : List String) :
    Ensures (At (Recorded name ns) []) (Scanner.readDirective reserved) fun cs s =>
      Recorded name (ns ++ Token.nodesAll cs) ⟨s.state.source, s.log⟩ := by
  have hline : Ensures (fun s => ∃ ts, LineRecorded name (ns ++ Token.nodesAll ts) ts s)
      (DirectiveLine.readFrom reserved .name) fun _ s => ∃ ts, LineRecorded name (ns ++ Token.nodesAll ts) ts s :=
    .loop lineTurn_recorded .name
  unfold Scanner.readDirective
  rw [DirectiveLine.readDirective_eq_loop]
  refine (hline.bind fun _ => Ensures.view_eq DirectiveLine.children).onState (fun s hs => ⟨[], rfl, ?_⟩) ?_
  · rw [Token.nodesAll, List.append_nil]
    exact hs
  · rintro _ _ t - ⟨rfl, ts, rfl, ht⟩
    exact ht.2

end Phases

/-! ## Whole texts -/

namespace Lexer

open Phases (Recorded)

variable {name : Option String} {ns : List Glyph}

/-- The log is in balance with `ns`, and all that is left. -/
def LexRecorded (name : Option String) (ns : List Glyph) (l : Logged (Lexer Phases)) : Prop :=
  Recorded name ns ⟨l.state.source, l.log⟩

theorem withScanner_recorded {α : Type} {m : ScanM (Scanner Phases) α} {Q : α → Logged Phases → Prop}
    (hm : Ensures (At (Recorded name ns) []) m fun a s => Q a ⟨s.state.source, s.log⟩) :
    Ensures (LexRecorded name ns) (withScanner m) fun a l => Q a ⟨l.state.source, l.log⟩ :=
  hm.onState (fun _ hs => ⟨rfl, hs⟩) fun _ _ _ _ hs => hs

theorem classify_recorded [Alphabet] {t : Token} (hc : t.children = []) :
    Ensures (LexRecorded name (ns ++ t.nodes)) (classify t) fun u => LexRecorded name (ns ++ u.nodes) := by
  have hstart (b : Bool) : Ensures (LexRecorded name (ns ++ t.nodes)) (setLineStart b) fun _ =>
      LexRecorded name (ns ++ t.nodes) := by
    rintro s hs _ _ ⟨⟩
    exact hs
  unfold classify
  split
  · split
    · exact (hstart true).bind fun _ => .pure _ fun s hs => hs
    · exact .pure _ fun s hs => hs
  · refine (Ensures.view _).bind fun b => ?_
    split
    · -- a directive takes over what its children are made of
      refine (Ensures.view _).bind fun reserved =>
        (withScanner_recorded (Phases.readDirective_recorded reserved)).bind fun cs => .pure _ fun s hs => ?_
      rw [t.nodes_eq, hc, Token.nodesAll, List.append_nil, List.append_assoc] at hs
      rw [LexRecorded, Token.nodes_eq]
      exact hs
    · refine (hstart false).bind fun _ => (Ensures.view _).bind fun reserved => .pure _ fun s hs => ?_
      rwa [Token.nodes_congr (Token.glyphs_reserve reserved t) (Token.children_reserve reserved t)]

theorem nextToken_recorded [Alphabet] :
    Ensures (LexRecorded name ns) nextToken fun o => LexRecorded name (ns ++ Token.nodesAll o.toList) := by
  have hscan : Ensures (LexRecorded name ns) (withScanner (Scanner.readToken .text)) fun o l =>
      (∀ t ∈ o, t.children = []) ∧ LexRecorded name (ns ++ Token.nodesAll o.toList) l :=
    withScanner_recorded (Q := fun o s => (∀ t ∈ o, t.children = []) ∧ Recorded name (ns ++ Token.nodesAll o.toList) s)
      ((Phases.readToken_recorded Table.fits_text).post fun o s hs => ⟨hs.1, hs.2.2⟩)
  refine hscan.bind fun o => .of_prop fun hc => ?_
  cases o with
  | none => exact .pure _ fun s hs => hs
  | some t =>
    simp only [Option.toList_some, Token.nodesAll_singleton]
    refine (classify_recorded (hc t rfl)).bind fun u => .pure _ fun s hs => ?_
    simpa using hs

theorem tokens_recorded [Alphabet] :
    Ensures (LexRecorded name []) tokens fun r l => r.2 = .ok () → LexRecorded name (Token.nodesAll r.1) l := by
  have hturn (ts : List Token) : Ensures (LexRecorded name (Token.nodesAll ts))
      (Turn.ofOption <$> nextToken : ScanM (Lexer Phases) _)
      (Turn.Post (fun t => LexRecorded name (Token.nodesAll (ts ++ [t])))
        fun _ => LexRecorded name (Token.nodesAll ts)) := by
    refine .map (nextToken_recorded.post ?_)
    rintro (_ | t) l hl
    · rwa [Option.toList_none, Token.nodesAll, List.append_nil] at hl
    · rw [Option.toList_some, ← Token.nodesAll_append] at hl
      exact hl
  exact (Ensures.gatherUntil hturn).post fun r l hl => hl ()

/-- The end takes over what was deleted in front of it. -/
theorem eof?_recorded :
    Ensures (LexRecorded name ns) eof? fun o l => ∀ e, o = some e →
      ∃ gs, Glyph.nodesAll gs = ns ++ e.nodes ∧ Balanced 0 l.log gs := by
  have htake : Ensures (Recorded name ns)
      (do let g ← Source.take
          if g.isEof then return some g
          else
            Source.giveBack g
            return none : ScanM Phases (Option Glyph)) fun o s => ∀ e, o = some e →
        ∃ gs, Glyph.nodesAll gs = ns ++ e.nodes ∧ Balanced 0 s.log gs := by
    refine .of_exists fun front => .of_prop ?_
    rintro rfl
    refine Phases.take_booked.bind fun g => ?_
    split
    · next hg =>
      refine .pure _ ?_
      rintro s (⟨-, -, -, hb⟩ | ⟨hg', -⟩)
      · rintro _ ⟨⟩
        exact ⟨front ++ [g], by simp [Glyph.nodesAll_append, Glyph.nodesAll], hb⟩
      · rw [hg'] at hg
        cases hg
    · exact Ensures.bind (Q := fun _ _ => True) (fun _ _ _ _ _ => trivial) fun _ => .pure _ fun _ _ => nofun
  unfold eof? onSource
  exact htake.onState (fun _ hs => hs) fun _ _ _ _ hs => hs

/-- All that is read of a text, and the end, are in balance with the log. -/
theorem tokens_eof_recorded [Alphabet] :
    Ensures (LexRecorded name []) (do return (← tokens, ← eof?)) fun r l => ∀ ts e, r = ((ts, .ok ()), some e) →
      ∃ gs, Glyph.nodesAll gs = Token.nodesAll ts ++ e.nodes ∧ Balanced 0 l.log gs := by
  refine tokens_recorded.bind fun r => ?_
  -- tokens that end with a fault are of no interest
  refine Ensures.bind (Q := fun o l => r.2 = .ok () → ∀ e, o = some e →
    ∃ gs, Glyph.nodesAll gs = Token.nodesAll r.1 ++ e.nodes ∧ Balanced 0 l.log gs)
    (fun s hs o s' h hr => eof?_recorded s (hs hr) o s' h) fun o => .pure _ ?_
  rintro l hl ts e ⟨⟩
  exact hl rfl e rfl

/-- At the beginning nothing has been replaced, and nothing is told of. -/
theorem ofFile_recorded {feed : Feed} {cs : List Char} (h : feed.Supplies (Utf8.encode cs)) (name : Option String)
    (trigraphs : Bool) (reserved : List String) :
    LexRecorded name [] ⟨ofFile (.ofFeed feed name) trigraphs reserved, []⟩ := by
  have hplain : ∀ g ∈ Glyph.inscribe name .origin (Text.unifyLineEnds cs), g.IsPlain :=
    fun _ => Glyph.isPlain_of_mem_inscribe
  refine ⟨[], rfl, rfl, _, File.ofFeed_holds h name, .of_isPlain hplain, ?_⟩
  rw [List.nil_append]
  exact (List.append_nil _).symm ▸ Balanced.of_isPlain hplain

/-- **Every substitution is recorded once.** Whatever the pieces in which the bytes of a text arrive, all tokens are
read, and then the end. The trigraphs that the log tells of are those in the glyphs that the tokens and the end are made
of, in the same order; and it tells of as many splices as there are pairs deleted in these glyphs. -/
theorem tokens_eof_log [Alphabet] {feed : Feed} {cs : List Char} (h : feed.Supplies (Utf8.encode cs))
    (name : Option String) (trigraphs : Bool) (reserved : List String) :
    ∃ (ts : List Token) (e : Glyph) (l : Lexer Phases) (log : List Event),
      (do return (← tokens, ← eof?)).run (ofFile (.ofFeed feed name) trigraphs reserved) =
        (.ok ((ts, .ok ()), some e), l, log) ∧
      log.filterMap Event.trigraph? = (Token.nodesAll ts ++ e.nodes).filterMap Glyph.trigraph? ∧
      log.countP Event.isSplice = ((Token.nodesAll ts ++ e.nodes).flatMap Glyph.deleted).length := by
  obtain ⟨_, l, hl, ts, e, rfl, -⟩ := tokens_eof_gives _ ⟨ofFile (.ofFeed feed name) trigraphs reserved, []⟩
    (Phases.ofFile_owes h name trigraphs)
  obtain ⟨gs, hgs, hb⟩ := tokens_eof_recorded _ (ofFile_recorded h name trigraphs reserved) _ _ hl ts e rfl
  refine ⟨ts, e, l.state, l.log.reverse, ScanM.run_of_ok hl, ?_, ?_⟩
  · rw [hb.trigraphs, ← hgs]
    rfl
  · rw [List.countP_reverse, hb.splices, ← hgs]
    rfl

/-- A trigraph, and a backslash in front of a spliced line feed. Behind the name both are given back, and the backslash
is spliced with what has been spliced already: the end has a pair in a pair. -/
theorem tokens_eof_log_resplice :
    Feed.Supplies [.bytes [63, 63, 33, 97], .bytes [92, 92, 10, 10]]
      (Utf8.encode ['?', '?', '!', 'a', '\\', '\\', '\n', '\n']) ∧
    ∃ (ts : List Token) (e : Glyph) (l : Lexer Phases) (log : List Event),
      (do return (← tokens, ← eof?)).run
        (ofFile (.ofFeed [.bytes [63, 63, 33, 97], .bytes [92, 92, 10, 10]] none) true []) =
          (.ok ((ts, .ok ()), some e), l, log) ∧
      (Token.nodesAll ts ++ e.nodes).filterMap Glyph.trigraph? = [("??!", '|')] ∧
      log.filterMap Event.trigraph? = [("??!", '|')] ∧
      ((Token.nodesAll ts ++ e.nodes).flatMap Glyph.deleted).length = 2 ∧ log.countP Event.isSplice = 2 := by
  have h : Feed.Supplies [.bytes [63, 63, 33, 97], .bytes [92, 92, 10, 10]]
      (Utf8.encode ['?', '?', '!', 'a', '\\', '\\', '\n', '\n']) :=
    .piece 63 [63, 33, 97] (.piece 92 [92, 10, 10] .nil)
  obtain ⟨ts, e, l, log, hrun, htrigraphs, hsplices⟩ := tokens_eof_log h none true []
  have hlog : log.filterMap Event.trigraph? = [("??!", '|')] ∧ log.countP Event.isSplice = 2 := by
    have heq : _ = log := congrArg (·.2.2) hrun
    rw [← heq]
    decide +kernel
  exact ⟨h, ts, e, l, log, hrun, htrigraphs.symm.trans hlog.1, hlog.1, hsplices.symm.trans hlog.2, hlog.2⟩

end Lexer

end Pretoken
