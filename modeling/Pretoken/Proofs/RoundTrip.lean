import Pretoken.Proofs.Ledger
import Pretoken.Proofs.Shadow

/-!
# The round trip

The plain glyphs behind the tokens of a text, followed by those behind the end, are the glyphs of the
text: each character once, in order, with its place.

* `Phases.Owes`, `Phases.ledger`: the text behind the phases, and that a token takes its own from the
  front of it.
* `Lexer.eof?_gives`, `Lexer.tokens_eof_gives`: at the end of the text, after all tokens, there is the end.
* **`Lexer.tokens_eof_leaves`**: the text goes back to where it came from.
-/

namespace Pretoken

open ScanM (Gives)

namespace Phases

open Glyph (leavesAll)

/-- The glyphs that are to come and the end go back to the plain glyphs `ls`. -/
def Owes (ls : List Glyph) (s : Phases) : Prop :=
  ∃ w e, s.Shows w e ∧ leavesAll w ++ e.leaves = ls

/-- There is nothing to come but the end, which goes back to the plain glyphs `ls`. -/
def Ended (ls : List Glyph) (s : Phases) : Prop :=
  ∃ e, s.Shows [] e ∧ e.leaves = ls

theorem Loose.owes {s : Phases} {w : List Glyph} {e : Glyph} (h : s.Loose w e) :
    s.Owes (leavesAll w ++ e.leaves) := by
  rcases h with ⟨-, hs⟩ | ⟨-, w', e', hs, hl, -⟩
  · exact ⟨w, e, hs, rfl⟩
  · exact ⟨w', e', hs, hl⟩

/-- **The phases owe the text behind them.** A token takes its own from the front of it, even where the
phases take what was given back for a splice. -/
def ledger [Alphabet] : Ledger Phases where
  Owes ls s := s.Owes ls
  Ended ls s := s.Ended ls
  owes_of_ended := fun ⟨e, hs, hl⟩ => ⟨[], e, hs, hl⟩
  readToken := by
    rintro table hf _ s ⟨hd, w, e, hs, rfl⟩
    obtain ⟨o, s', r', hs', -, hd', hr, ho⟩ := readToken_shadow hf (s := s)
      (r := ⟨⟨.ofGlyphs w none, .empty⟩, []⟩) ⟨hd, hs⟩ ⟨rfl, rfl⟩
    refine ⟨o, s', hs', hd', ?_⟩
    cases o with
    | none =>
      obtain ⟨rfl, -⟩ := hr
      exact ⟨e, ho, rfl⟩
    | some t =>
      obtain ⟨-, hc, p, rest, -, rfl, hp, -, hrest⟩ := hr
      refine ⟨hc, leavesAll rest ++ e.leaves, ?_, ?_⟩
      · rw [hrest] at ho
        by_cases hk : t.kind = .identifier
        · simp only [hk, if_true] at ho
          exact ho.owes
        · simp only [hk, if_false] at ho
          exact ⟨rest, e, ho, rfl⟩
      · rw [hp.leavesAll_eq, Glyph.leavesAll_append, List.append_assoc]

theorem ofFile_owes {feed : Feed} {cs : List Char} (h : feed.Supplies (Utf8.encode cs))
    (name : Option String) (trigraphs : Bool) :
    (ofFile (.ofFeed feed name) trigraphs).Owes (Glyph.inscribe name .origin (Text.unifyLineEnds cs)) := by
  refine ⟨_, _, ofFile_shows h name trigraphs rfl, ?_⟩
  have hp : ∀ g ∈ [] ++ Glyph.phaseOne trigraphs (Glyph.inscribe name .origin (Text.unifyLineEnds cs)),
      g.Placed := Glyph.placed_of_mem_phaseOne fun _ => Glyph.placed_of_mem_inscribe
  rw [Glyph.leaves, Glyph.leavesAll_joinLines [] hp, Glyph.leavesAll_phaseOne, Glyph.leavesAll_inscribe]
  rfl

end Phases

namespace Lexer

theorem eof?_gives (e : Glyph) :
    Gives (fun l : Lexer Phases => l.source.Shows [] e) eof? fun o _ => o = some e := by
  intro s hs
  have htake : Gives (·.Shows [] e)
      (do let g ← Source.take
          if g.isEof then return some g
          else
            Source.giveBack g
            return none : ScanM Phases (Option Glyph)) fun o _ => o = some e := by
    intro t ht
    refine Phases.take_nil.bind (fun g => Meets.of_prop fun hg => ?_) t ht
    rw [hg, ht.isEof, if_pos rfl]
    exact .pure _ fun _ _ => rfl
  obtain ⟨o, t, ho, hq⟩ := htake ⟨s.state.source, s.log⟩ hs
  refine ⟨o, ⟨{ s.state with source := t.state }, t.log⟩, ?_, hq⟩
  rw [eof?, onSource, ScanM.onState, onPart, ho]

theorem join_raw (ts : List Token) :
    String.join (ts.map Token.raw) = String.ofList (Glyph.spelling (Token.leavesAll ts)) := by
  induction ts with
  | nil => rfl
  | cons t ts ih =>
    rw [List.map_cons, String.join_cons, ih, Token.leavesAll, Glyph.spelling_append, String.ofList_append]
    rfl

/-- All tokens are read, and then the end, and they pay all that the source owes. -/
theorem tokens_eof_gives [Alphabet] (ls : List Glyph) :
    Gives (fun l : Lexer Phases => l.source.Owes ls) (do return (← tokens, ← eof?)) fun r _ =>
      ∃ ts e, r = ((ts, .ok ()), some e) ∧ Token.leavesAll ts ++ e.leaves = ls := by
  refine (Phases.ledger.tokens_gives ls).bind fun r => ?_
  rintro s ⟨hr, _, ⟨e, hs, rfl⟩, hl⟩
  refine ((eof?_gives e).bind fun o => .pure _ fun t ho => ?_) s hs
  exact ⟨r.1, e, by rw [ho, ← hr], hl⟩

/-- **The round trip.** Whatever the pieces in which the bytes of a text arrive, all tokens are read, and
then the end. The plain glyphs behind the tokens and the end are the characters of the text with unified
line ends, each at its place: nothing is lost, repeated or moved. -/
theorem tokens_eof_leaves [Alphabet] {feed : Feed} {cs : List Char} (h : feed.Supplies (Utf8.encode cs))
    (name : Option String) (trigraphs : Bool) (reserved : List String) :
    ∃ (ts : List Token) (e : Glyph),
      ((do return (← tokens, ← eof?)).run (ofFile (.ofFeed feed name) trigraphs reserved)).1 =
        .ok ((ts, .ok ()), some e) ∧
      (∀ i : Nat, (Token.leavesAll ts ++ e.leaves)[i]? = (Text.unifyLineEnds cs)[i]?.map fun c =>
        .plain c name (Location.origin.after ((Text.unifyLineEnds cs).take i))) ∧
      String.join (ts.map Token.raw) ++ e.raw = String.ofList (Text.unifyLineEnds cs) := by
  have howed := Phases.ofFile_owes h name trigraphs
  generalize Text.unifyLineEnds cs = text at howed ⊢
  obtain ⟨_, hrun, ts, e, rfl, hl⟩ := ScanM.run_of_gives (tokens_eof_gives _)
    (s := ofFile (.ofFeed feed name) trigraphs reserved) howed
  refine ⟨ts, e, hrun, fun i => ?_, ?_⟩
  · rw [hl, Glyph.getElem?_inscribe]
  · have happ : Glyph.spelling (Token.leavesAll ts) ++ Glyph.spelling e.leaves = text := by
      rw [← Glyph.spelling_append, hl, Glyph.spelling_inscribe]
    rw [join_raw, Glyph.raw, ← String.ofList_append, happ]

/-- A directive with a splice made of a trigraph, which breaks off in the middle of a name; its bytes
arrive in two pieces. -/
theorem tokens_eof_leaves_directive :
    Feed.Supplies [.bytes [35, 105, 63], .bytes [63, 47, 13, 10, 102]]
      (Utf8.encode ['#', 'i', '?', '?', '/', '\r', '\n', 'f']) ∧
    ∃ (ts : List Token) (e : Glyph),
      ((do return (← tokens, ← eof?)).run (ofFile (.ofFeed
        [.bytes [35, 105, 63], .bytes [63, 47, 13, 10, 102]] (some "a.c")) true ["if"])).1 =
        .ok ((ts, .ok ()), some e) ∧
      (∀ i : Nat, (Token.leavesAll ts ++ e.leaves)[i]? = ['#', 'i', '?', '?', '/', '\n', 'f'][i]?.map
        fun c => .plain c (some "a.c") (Location.origin.after (['#', 'i', '?', '?', '/', '\n', 'f'].take i))) ∧
      String.join (ts.map Token.raw) ++ e.raw = "#i??/\nf" := by
  have h : Feed.Supplies [.bytes [35, 105, 63], .bytes [63, 47, 13, 10, 102]]
      (Utf8.encode ['#', 'i', '?', '?', '/', '\r', '\n', 'f']) :=
    .piece 35 [105, 63] (.piece 63 [47, 13, 10, 102] .nil)
  exact ⟨h, tokens_eof_leaves h (some "a.c") true ["if"]⟩

end Lexer

end Pretoken
