import Pretoken.Proofs.Contracts
import Pretoken.Proofs.Separation
import Pretoken.Proofs.Shaping

/-!
# Reading an operand again

The operand of an `include` directive is read again as it would be read in the directive, after its name. What holds of
all directives so holds of the tokens that come of it; and these stand for all the glyphs up to the end of a line.

* `DirectiveLine.behind`, `DirectiveLine.readFrom_behind`: the tokens of a line do not depend on those before them.
* `Token.includeName`: the name of an `include` directive, behind which the operand comes.
* `WellShaped.space_of_header`: a header name comes first in the operand.
* **`Token.reparseInclude_conserves`**: nothing of the operand is lost.
-/

namespace Pretoken

open ScanM (Gives)
open Glyph (leavesAll)

/-! ## Tokens before others -/

namespace DirectiveLine

variable {σ : Type} [Source σ]

/-- The same line behind the tokens `old`, the last one first. -/
def behind (old : List Token) (s : Logged (DirectiveLine σ)) : Logged (DirectiveLine σ) :=
  ⟨⟨s.state.scanner, s.state.newestFirst ++ old⟩, s.log⟩

omit [Source σ] in
theorem children_behind (old : List Token) (s : Logged (DirectiveLine σ)) :
    (behind old s).state.children = old.reverse ++ s.state.children :=
  List.reverse_append

variable {reserved : List String} {s s' : Logged (DirectiveLine σ)} (old : List Token)

theorem lineTurn_behind [Alphabet] {place : LinePlace} {x : Turn LinePlace Unit}
    (h : lineTurn reserved place s = .ok x s') :
    lineTurn reserved place (behind old s) = .ok x (behind old s') := by
  match hr : Scanner.readToken place.table ⟨s.state.scanner, s.log⟩ with
  | .ok none u =>
    rw [lineTurn_none hr] at h
    cases h
    exact lineTurn_none (s := behind old s) hr
  | .ok (some t) u =>
    rw [lineTurn_some hr] at h
    cases h
    exact lineTurn_some (s := behind old s) hr
  | .error e u =>
    have hm : (Option.map (Token.reserve reserved) <$> Scanner.readToken place.table) ⟨s.state.scanner, s.log⟩ =
        .error e u := by
      change EStateM.map _ _ _ = _
      rw [EStateM.map, hr]
    have hread : readToken reserved place.table s = .error e ⟨⟨u.state, s.state.newestFirst⟩, u.log⟩ := by
      rw [readToken, ScanM.onState, onPart, hm]
    simp only [lineTurn, bind, EStateM.bind, hread] at h
    cases h

/-- **What is read of a line does not depend on what has been read of it.** -/
theorem readFrom_behind [Alphabet] {place : LinePlace} (h : readFrom reserved place s = .ok () s') :
    readFrom reserved place (behind old s) = .ok () (behind old s') := by
  unfold readFrom at h
  induction place, s using loop_induct (fun place => (lineTurn_within (σ := σ) reserved place).draws) with
  | step place s ih =>
    rw [loop_eq] at h
    match hb : lineTurn reserved place s, h with
    | .ok (.again next) t, h => exact (readFrom_again (lineTurn_behind old hb)).trans (ih next t hb h)
    | .ok (.done ()) t, rfl => exact readFrom_done (lineTurn_behind old hb)

end DirectiveLine

/-! ## Behind an `include` -/

namespace Token

/-- The name of an `include` directive. -/
def includeName : Token := ⟨Glyph.inscribe none .origin "include".toList, .directiveName, []⟩

theorem orderly_includeName : Orderly [includeName] :=
  orderly_nil.concat ⟨⟨rfl, by decide, by decide, by decide, by decide, by decide⟩, by decide⟩

end Token

theorem TokenKind.of_isSpace {k : TokenKind} (h : k.isSpace = true) : k = .delimiter ∨ k = .comment := by
  cases k <;> simp_all [isSpace]

namespace WellShaped

open Token (includeName)

variable {cs before rest : List Token} {t : Token} (h : WellShaped (includeName :: cs))
include h

/-- What is read behind an `include` has no other name of a directive in it. -/
theorem space_of_followsInclude (hcs : cs = before ++ rest) (hf : FollowsInclude (includeName :: before)) :
    ∀ u ∈ before, u.kind.isSpace = true := by
  obtain ⟨blanks, name, gap, heq, hk, -, hgap⟩ := hf
  cases blanks with
  | nil =>
    obtain ⟨-, rfl⟩ := List.cons.inj heq
    exact hgap
  | cons b blanks =>
    obtain ⟨rfl, rfl⟩ := List.cons.inj heq
    have hname := (h.directiveName (includeName :: blanks) name (gap ++ rest) (by simp [hcs])).1 hk
    exact absurd (hname.1 includeName List.mem_cons_self) (by decide)

/-- Before a header name there is nothing but white space. -/
theorem space_of_header (hcs : cs = before ++ t :: rest) (ht : t.kind = .filename ∨ t.kind = .standardHeader) :
    ∀ u ∈ before, u.kind.isSpace = true := by
  have hcs' : includeName :: cs = (includeName :: before) ++ t :: rest := by rw [hcs, List.cons_append]
  refine h.space_of_followsInclude hcs ?_
  rcases ht with hk | hk
  · exact ((h.filename _ t rest hcs').1 hk).1
  · exact ((h.standardHeader _ t rest hcs').1 hk).1

/-- After a header name there is no other. -/
theorem not_header (hcs : cs = before ++ t :: rest) (ht : t.kind = .filename ∨ t.kind = .standardHeader) {u : Token}
    (hu : u ∈ rest) : ¬ (u.kind = .filename ∨ u.kind = .standardHeader) := by
  intro hk
  obtain ⟨between, rest, rfl⟩ := List.append_of_mem hu
  have hcs' : cs = (before ++ t :: between) ++ u :: rest := by simpa using hcs
  have hspace := h.space_of_header hcs' hk t (by simp)
  rcases ht with ht | ht <;> exact absurd hspace (by rw [ht]; decide)

theorem directiveEnd_notMem_dropLast : ∀ t ∈ cs.dropLast, t.kind ≠ .directiveEnd := by
  intro t ht
  refine h.ending t ?_
  rw [List.dropLast_cons_of_ne_nil (List.ne_nil_of_mem (List.dropLast_subset _ ht))]
  exact List.mem_cons_of_mem _ ht

/-- If the last token does not end the line, no token does. -/
theorem directiveEnd_notMem (hlast : ∀ t, cs.getLast? = some t → t.kind ≠ .directiveEnd) :
    ∀ t ∈ includeName :: cs, t.kind ≠ .directiveEnd := by
  refine List.forall_mem_cons.2 ⟨by decide, fun t ht => ?_⟩
  rcases List.eq_nil_or_concat cs with rfl | ⟨front, u, rfl⟩
  · cases ht
  · rw [List.concat_eq_append] at *
    rcases List.mem_append.1 ht with ht | ht
    · exact h.directiveEnd_notMem_dropLast t (by rwa [List.dropLast_concat])
    · rw [List.mem_singleton.1 ht]
      exact hlast u List.getLast?_concat

end WellShaped

/-! ## Operands -/

namespace Token

variable {σ : Type}

theorem leavesAll_of_children {ts : List Token} (h : ∀ t ∈ ts, t.children = []) :
    leavesAll ts = Glyph.leavesAll (ts.flatMap glyphs) := by
  induction ts with
  | nil => rfl
  | cons t ts ih =>
    rw [List.forall_mem_cons] at h
    rw [leavesAll, leaves_of_children h.1, ih h.2, List.flatMap_cons, Glyph.leavesAll_append]

/-- An operand is read as in a directive, and what has not been read of it is still to come. -/
theorem reparseInclude_gives [Alphabet] {w : List Glyph} (hw : ∀ g ∈ w, g.Placed) (reserved : List String)
    (file : Option String) (log : List Event) :
    ∃ l, DirectiveLine.readInclude reserved ⟨.ofScanner (.ofSource (Replay.ofGlyphs w file)), log⟩ = .ok () l ∧
      WellShaped (includeName :: l.state.children) ∧
      ∃ rest, leavesAll l.state.children ++ rest = Glyph.leavesAll w ∧
        ((∀ t ∈ includeName :: l.state.children, t.kind ≠ .directiveEnd) → rest = []) := by
  obtain ⟨_, l, hl, -, cs, rest, rfl, ⟨-, rfl⟩, hls⟩ := Replay.ledger.readFrom_gives [] (Glyph.leavesAll w) reserved
    .operand ⟨.ofScanner (.ofSource (Replay.ofGlyphs w file)), log⟩ ⟨rfl, [], _, rfl, ⟨hw, rfl⟩, rfl⟩
  have hopen : ∀ t ∈ [includeName], t.kind ≠ .directiveEnd := by decide
  have hafter : LinePlace.operand = LinePlace.after [includeName] := by decide
  obtain ⟨_, r, hr, hcomplete⟩ := ScanM.loop_gives (Replay.lineTurn_orderly reserved) .operand
    (DirectiveLine.behind [includeName] ⟨.ofScanner (.ofSource (Replay.ofGlyphs w file)), log⟩)
    ⟨orderly_includeName, hopen, hafter, w, hw, rfl, rfl⟩
  -- behind the name the line is the same
  obtain rfl : DirectiveLine.behind [includeName] l = r := by
    cases (DirectiveLine.readFrom_behind [includeName] hl).symm.trans hr
    rfl
  have hchildren : (DirectiveLine.behind [includeName] l).state.children = includeName :: l.state.children :=
    DirectiveLine.children_behind [includeName] l
  obtain ⟨hshape, hcoming⟩ := hcomplete
  rw [hchildren] at hshape hcoming
  refine ⟨l, ?_, hshape, _, hls, fun hnone => ?_⟩
  · rw [DirectiveLine.readInclude_eq_loop]
    exact hl
  · exact congrArg Glyph.leavesAll (hcoming hnone)

/-- **Reading an operand again loses nothing.** Whatever words are reserved, tokens that a lexer returned can be read
again as an operand. What comes of it stands for the glyphs of these tokens from the first on; and for all of them,
unless it ends with the end of a line, which comes last. A header name is the first that is no white space, and there
are no others. -/
theorem reparseInclude_conserves [Alphabet] {ts : List Token} (h : ∀ t ∈ ts, t.Lexed) (reserved : List String)
    (file : Option String) (s : σ) :
    ∃ us, ((reparseInclude reserved ts file).run s).1 = .ok us ∧
      Glyph.leavesAll (us.flatMap glyphs) <+: Glyph.leavesAll (ts.flatMap glyphs) ∧
      ((∀ t, us.getLast? = some t → t.kind ≠ .directiveEnd) →
        Glyph.leavesAll (us.flatMap glyphs) = Glyph.leavesAll (ts.flatMap glyphs)) ∧
      (∀ t ∈ us.dropLast, t.kind ≠ .directiveEnd) ∧
      (∀ before t rest, us = before ++ t :: rest → t.kind = .filename ∨ t.kind = .standardHeader →
        (∀ u ∈ before, u.kind = .delimiter ∨ u.kind = .comment) ∧
          ∀ u ∈ rest, ¬ (u.kind = .filename ∨ u.kind = .standardHeader)) ∧
      ∀ t ∈ us, t.children = [] := by
  have hw := placed_of_solid fun t ht => (h t ht).solid
  obtain ⟨l, hl, hshape, rest, hleaves, hrest⟩ := reparseInclude_gives hw reserved file []
  have hchildren : ∀ t ∈ l.state.children, t.children = [] := fun t ht => hshape.children t (List.mem_cons_of_mem _ ht)
  rw [leavesAll_of_children hchildren] at hleaves
  refine ⟨l.state.children, ?_, ⟨rest, hleaves⟩, fun hlast => ?_, hshape.directiveEnd_notMem_dropLast, ?_, hchildren⟩
  · have hscan : reparseInclude reserved ts file ⟨s, []⟩ = .ok l.state.children ⟨s, l.log⟩ := by
      rw [reparseInclude, ScanM.aside, onPart, bind_of_ok hl]
      rfl
    rw [ScanM.run_of_ok hscan]
  · rw [← hleaves, hrest (hshape.directiveEnd_notMem hlast), List.append_nil]
  · intro before t rest hus ht
    exact ⟨fun u hu => TokenKind.of_isSpace (hshape.space_of_header hus ht u hu),
      fun u hu => hshape.not_header hus ht hu⟩

/-- The tokens of a directive that fails to have a name, and the one after it. There are a splice, a trigraph and a
digraph in them; together they are a header name, and what stands in the next line is not read. -/
theorem reparseInclude_conserves_header :
    ∃ ts : List Token, (∀ t ∈ ts, t.Lexed) ∧ ts.map Token.value = ["<", "a", "[", "#", ">", "\n", "x"] ∧
      ∃ us, ((reparseInclude [] ts none).run ()).1 = .ok us ∧ us.map Token.kind = [.standardHeader, .directiveEnd] ∧
        Glyph.leavesAll (us.flatMap glyphs) <+: Glyph.leavesAll (ts.flatMap glyphs) ∧
        (∀ t ∈ us.dropLast, t.kind ≠ .directiveEnd) ∧ ∀ t ∈ us, t.children = [] := by
  -- the directive comes before its tokens
  have hcalls : ((Lexer.answers [.next, .next]).run (.ofFile (.ofFeed
      [.bytes [35, 60, 97, 92, 10, 63, 63, 40, 37, 58, 62, 10, 120]] none) true [])).1.toOption.map
        (fun rs => ((rs.flatMap Reply.tokens).tail.map Token.value,
          ((reparseInclude [] (rs.flatMap Reply.tokens).tail none).run ()).1.toOption.map (·.map Token.kind))) =
      some (["<", "a", "[", "#", ">", "\n", "x"], some [.standardHeader, .directiveEnd]) := by
    decide +kernel
  obtain ⟨replies, hreplies, heq⟩ := Option.map_eq_some_iff.1 hcalls
  obtain ⟨hvalues, hkinds⟩ := Prod.mk.inj heq
  have hlexed : ∀ t ∈ (replies.flatMap Reply.tokens).tail, t.Lexed := fun t ht =>
    lexed_of_run (by rw [hreplies, Option.map_some]) (List.mem_of_mem_tail ht)
  obtain ⟨us, hus, hprefix, -, hend, -, hchildren⟩ := reparseInclude_conserves hlexed [] none ()
  rw [hus] at hkinds
  exact ⟨_, hlexed, hvalues, us, hus, Option.some.inj hkinds, hprefix, hend, hchildren⟩

end Token

end Pretoken
