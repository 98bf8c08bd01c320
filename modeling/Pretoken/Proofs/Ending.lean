import Pretoken.Proofs.Probing
import Pretoken.Proofs.RoundTrip

/-!
# Coming to the end

A text has finitely many tokens, and then it has ended. Which calls are made of the lexer, and in which order, does
not matter: each call for a token gives the next one, each call for the end is denied until all tokens are gone, and
from then on there is no token and always the same end.

* `Feed.Flows.supplies`: what a feed of pieces that are not empty supplies.
* `Lexer.Coming`: tokens that are to come, and the end after them. `Lexer.Coming.next`, `Lexer.Coming.probe`: what one
  call makes of it.
* `Lexer.Coming.replies`: any calls.
* `Lexer.coming_ofFile`: a text has at most as many tokens as characters.
* **`Lexer.tokens_then_end`**: the answers to any calls about a text.
-/

namespace Pretoken

theorem Feed.Flows.supplies {feed : Feed} (h : feed.Flows) : feed.Supplies feed.content := by
  obtain ⟨hsolid, hfail⟩ := h
  induction feed with
  | nil => exact .nil
  | cons piece rest ih =>
    have hrest : Feed.Solid rest := fun hm => hsolid (List.mem_cons_of_mem piece hm)
    cases piece with
    | failure kind text => cases hfail
    | bytes bs =>
      cases bs with
      | nil => exact absurd List.mem_cons_self hsolid
      | cons b bs => exact .piece b bs (ih hrest hfail)

/-- Tokens that have characters have at least one plain glyph each. -/
theorem Token.length_le_leavesAll {ts : List Token}
    (h : ∀ t ∈ ts, t.glyphs ≠ [] ∧ ∀ g ∈ t.glyphs, g.Placed) : ts.length ≤ (leavesAll ts).length := by
  induction ts with
  | nil => exact Nat.le_refl 0
  | cons t ts ih =>
    obtain ⟨hne, hplaced⟩ := h t List.mem_cons_self
    have hts := ih fun u hu => h u (List.mem_cons_of_mem t hu)
    obtain ⟨g, gs, hg⟩ := List.exists_cons_of_ne_nil hne
    have hleaves : 0 < g.leaves.length :=
      List.length_pos_iff.2 (Glyph.leaves_ne_nil g (hplaced g (hg ▸ List.mem_cons_self)).start)
    rw [leavesAll, t.leaves_eq, hg, Glyph.leavesAll]
    simp only [List.length_append, List.length_cons]
    omega

namespace Lexer

variable {σ : Type} [Source σ] {U : Upkeep σ} {e : Glyph} {ts : List Token} {l l' : Logged (Lexer σ)}

/-! ## Tokens to come -/

section

variable [Alphabet]

/-- These tokens are to come, one after the other, and after them the end `e` for ever. -/
inductive Coming (U : Upkeep σ) (e : Glyph) : List Token → Logged (Lexer σ) → Prop
  /-- The end has come. -/
  | ended {l : Logged (Lexer σ)} {u : Logged σ} (run : Source.take ⟨l.state.source, l.log⟩ = .ok e u)
    (eof : e.isEof = true) (again : Source.take u = .ok e u) : Coming U e [] l
  /-- A token comes. -/
  | token {t : Token} {ts : List Token} {l l' : Logged (Lexer σ)} (fine : U.Fine l.state.source)
    (run : nextToken l = .ok (some t) l') (rest : Coming U e ts l') : Coming U e (t :: ts) l

namespace Coming

theorem of_alike (h : Coming U e ts l) (like : Alike l' l) (fine : U.Fine l'.state.source) :
    Coming U e ts l' := by
  cases h with
  | ended run eof again => exact .ended (like.take.trans run) eof again
  | token _ run rest => exact .token fine (like.nextToken.trans run) rest

/-- A call for a token gives the first of those to come. -/
theorem next (h : Coming U e ts l) : ∃ l', nextToken l = .ok ts.head? l' ∧ Coming U e ts.tail l' := by
  cases h with
  | ended run eof again => exact ⟨_, nextToken_of_end run eof, .ended again eof again⟩
  | token fine run rest => exact ⟨_, run, rest⟩

/-- A call for the end gives the end if nothing else is to come, and changes nothing. -/
theorem probe (S : U.Steady) (h : Coming U e ts l) :
    ∃ l', eof? l = .ok (if 0 < ts.length then none else some e) l' ∧ Coming U e ts l' := by
  cases h with
  | ended run eof again => exact ⟨_, eof?_of_end run eof, .ended again eof again⟩
  | @token t ts _ l₁ fine run rest =>
    have hpos : 0 < (t :: ts).length := Nat.succ_pos _
    rw [if_pos hpos]
    cases probed S fine with
    | char hprobe like => exact ⟨_, hprobe, (token fine run rest).of_alike like (U.eof?.ok fine hprobe).2⟩
    | ended _ like hnone => cases (like.nextToken.symm.trans hnone).symm.trans run
    | failed _ like herr => cases (like.nextToken.symm.trans herr).symm.trans run

/-- **Calls in any order.** A token is given for each call that asks for one, as long as there are tokens, and a
call for the end is denied as long as there are tokens. -/
theorem replies (S : U.Steady) (requests : List Request) (h : Coming U e ts l) :
    ∃ replies l', answers requests l = .ok replies l' ∧ ∀ i : Nat,
      (requests[i]? = some .next →
        replies[i]? = some (.token (.ok ts[(requests.take i).count .next]?))) ∧
      (requests[i]? = some .probe →
        replies[i]? = some (.ending (.ok
          (if (requests.take i).count .next < ts.length then none else some e)))) := by
  induction requests generalizing ts l with
  | nil => exact ⟨[], l, rfl, fun i => ⟨by simp, by simp⟩⟩
  | cons request requests ih =>
    cases request with
    | next =>
      obtain ⟨l₁, h₁, hcoming⟩ := h.next
      obtain ⟨replies, l', hl', hall⟩ := ih hcoming
      refine ⟨.token (.ok ts.head?) :: replies, l', answers_cons (by rw [answer_next, h₁]) hl', fun i => ?_⟩
      cases i with
      | zero => exact ⟨fun _ => by simp [List.head?_eq_getElem?], by simp⟩
      | succ i =>
        have hcount : ((.next :: requests).take (i + 1)).count .next = (requests.take i).count .next + 1 := by simp
        simpa only [hcount, List.getElem?_cons_succ, List.getElem?_tail, List.length_tail, Nat.lt_sub_iff_add_lt]
          using hall i
    | probe =>
      obtain ⟨l₁, h₁, hcoming⟩ := h.probe S
      obtain ⟨replies, l', hl', hall⟩ := ih hcoming
      refine ⟨_, l', answers_cons (by rw [answer_probe, h₁]) hl', fun i => ?_⟩
      cases i with
      | zero => exact ⟨by simp, fun _ => rfl⟩
      | succ i =>
        have hcount : ((.probe :: requests).take (i + 1)).count .next = (requests.take i).count .next := by simp
        simpa only [hcount, List.getElem?_cons_succ] using hall i
    | place =>
      obtain ⟨replies, l', hl', hall⟩ := ih h
      refine ⟨.place (location l.state) :: replies, l', answers_cons rfl hl', fun i => ?_⟩
      cases i with
      | zero => exact ⟨by simp, by simp⟩
      | succ i =>
        have hcount : ((.place :: requests).take (i + 1)).count .next = (requests.take i).count .next := by simp
        simpa only [hcount, List.getElem?_cons_succ] using hall i

end Coming

/-- Tokens after which there is no other are to come, and so is some end. -/
theorem exists_coming (S : U.Steady) (hl : U.Fine l.state.source) (hy : Yields ts l l')
    {l'' : Logged (Lexer σ)} (hnone : nextToken l' = .ok none l'') :
    ∃ e, e.isEof = true ∧ Coming U e ts l ∧ ∀ t ∈ ts, U.Whole t := by
  induction ts generalizing l with
  | nil =>
    obtain rfl : l = l' := hy
    cases S.take (s := ⟨l.state.source, l.log⟩) hl with
    | char run good => exact absurd hnone (nextToken_ne_none run (U.closed.placed good).isEof)
    | @ended e u run _ eof _ again => exact ⟨e, eof, .ended run eof again, nofun⟩
    | failed run => cases (nextToken_of_failed run).symm.trans hnone
  | cons t ts ih =>
    obtain ⟨l₁, h₁, hy⟩ := hy
    obtain ⟨hwhole, hfine⟩ := U.nextToken.ok hl h₁
    obtain ⟨e, eof, hcoming, hall⟩ := ih hfine hy
    refine ⟨e, eof, .token hl h₁ hcoming, fun u hu => ?_⟩
    rcases List.mem_cons.1 hu with rfl | hu
    · exact hwhole u rfl
    · exact hall u hu

/-! ## Texts -/

/-- **The tokens of a text are no more than its characters**, and each has a character of its own. -/
theorem coming_ofFile {feed : Feed} (h : feed.Flows) {cs : List Char} (hc : feed.content = Utf8.encode cs)
    (name : Option String) (trigraphs : Bool) (reserved : List String) :
    ∃ ts e, ts.length ≤ (Text.unifyLineEnds cs).length ∧ (∀ t ∈ ts, t.glyphs ≠ []) ∧ e.isEof = true ∧
      Coming (Phases.upkeep Glyph.closed_placed LineReader.lasts_flows) e ts
        ⟨ofFile (.ofFeed feed name) trigraphs reserved, []⟩ := by
  have hfine := Phases.fine_ofFile Glyph.closed_placed LineReader.lasts_flows h name trigraphs
  have howed := Phases.ofFile_owes (hc ▸ h.supplies) name trigraphs
  obtain ⟨ts, l', hts⟩ := Phases.ledger.tokens_ok
    (l := ⟨ofFile (.ofFeed feed name) trigraphs reserved, []⟩) howed
  obtain ⟨l₁, hy, hnone⟩ := exists_yields hts
  obtain ⟨e, eof, hcoming, hwhole⟩ := exists_coming (Phases.steady Glyph.closed_placed) hfine hy hnone
  obtain ⟨⟨rest, -, hrest⟩, -⟩ := Phases.ledger.owes_of_yields
    (l := ⟨ofFile (.ofFeed feed name) trigraphs reserved, []⟩) howed hy
  refine ⟨ts, e, ?_, fun t ht => (hwhole t ht).1.1, eof, hcoming⟩
  calc ts.length ≤ (Token.leavesAll ts).length := Token.length_le_leavesAll fun t ht => (hwhole t ht).1
    _ ≤ (Glyph.inscribe name .origin (Text.unifyLineEnds cs)).length := by
      rw [← hrest, List.length_append]
      exact Nat.le_add_right _ _
    _ = (Text.unifyLineEnds cs).length := Glyph.length_inscribe _ _ _

/-- **Lexing ends, and stays at its end.** A text of so many characters with unified line ends has at most so many
tokens, each with a character of its own. Whatever is asked of the lexer, and in whatever order: the calls for a token
give these tokens one after the other, and then none for ever; a call for the end is denied until all tokens are gone,
and from then on gives one and the same end. -/
theorem tokens_then_end {feed : Feed} (h : feed.Flows) {cs : List Char} (hc : feed.content = Utf8.encode cs)
    (name : Option String) (trigraphs : Bool) (reserved : List String) :
    ∃ (ts : List Token) (e : Glyph),
      ts.length ≤ (Text.unifyLineEnds cs).length ∧ (∀ t ∈ ts, t.glyphs ≠ []) ∧ e.isEof = true ∧
      ∀ requests : List Request, ∃ replies : List Reply,
        ((answers requests).run (ofFile (.ofFeed feed name) trigraphs reserved)).1 = .ok replies ∧
        ∀ i : Nat,
          (requests[i]? = some .next →
            replies[i]? = some (.token (.ok ts[(requests.take i).count .next]?))) ∧
          (requests[i]? = some .probe →
            replies[i]? = some (.ending (.ok
              (if (requests.take i).count .next < ts.length then none else some e)))) := by
  obtain ⟨ts, e, hlen, hne, eof, hcoming⟩ := coming_ofFile h hc name trigraphs reserved
  refine ⟨ts, e, hlen, hne, eof, fun requests => ?_⟩
  obtain ⟨replies, l', hl', hall⟩ := hcoming.replies (Phases.steady Glyph.closed_placed) requests
  exact ⟨replies, by rw [ScanM.run_of_ok hl'], hall⟩

end

/-- A name and a splice before the end, in two pieces: three characters, so three calls for a token are enough. -/
theorem tokens_then_end_splice :
    (Feed.Flows [.bytes [97, 92], .bytes [13, 10]] ∧
      Feed.content [.bytes [97, 92], .bytes [13, 10]] = Utf8.encode ['a', '\\', '\r', '\n']) ∧
    ∃ (replies : List Reply) (e : Glyph),
      ((answers [.next, .next, .next, .next, .probe, .next, .probe]).run
        (ofFile (.ofFeed [.bytes [97, 92], .bytes [13, 10]] none) false [])).1 = .ok replies ∧
      e.isEof = true ∧
      replies[3]? = some (.token (.ok none)) ∧ replies[4]? = some (.ending (.ok (some e))) ∧
      replies[5]? = some (.token (.ok none)) ∧ replies[6]? = some (.ending (.ok (some e))) := by
  have h : Feed.Flows [.bytes [97, 92], .bytes [13, 10]] := by decide
  have hc : Feed.content [.bytes [97, 92], .bytes [13, 10]] = Utf8.encode ['a', '\\', '\r', '\n'] := by decide
  obtain ⟨ts, e, hlen, -, eof, hall⟩ := tokens_then_end h hc none false []
  obtain ⟨replies, hrun, hi⟩ := hall [.next, .next, .next, .next, .probe, .next, .probe]
  have hnext (n : Nat) (hn : 3 ≤ n) : ts[n]? = none := List.getElem?_eq_none (Nat.le_trans hlen hn)
  have hprobe (n : Nat) (hn : 3 ≤ n) : (if n < ts.length then none else some e) = some e :=
    if_neg (Nat.not_lt.2 (Nat.le_trans hlen hn))
  refine ⟨⟨h, hc⟩, replies, e, hrun, eof, ?_, ?_, ?_, ?_⟩
  · exact ((hi 3).1 rfl).trans (congrArg (fun o => some (Reply.token (.ok o))) (hnext 3 (by decide)))
  · exact ((hi 4).2 rfl).trans (congrArg (fun o => some (Reply.ending (.ok o))) (hprobe 4 (by decide)))
  · exact ((hi 5).1 rfl).trans (congrArg (fun o => some (Reply.token (.ok o))) (hnext 4 (by decide)))
  · exact ((hi 6).2 rfl).trans (congrArg (fun o => some (Reply.ending (.ok o))) (hprobe 5 (by decide)))

end Lexer

end Pretoken
