import Mathlib.Data.List.DropRight
import Pretoken.Operators
import Pretoken.Proofs.Buffering
import Pretoken.Proofs.Probing

/-!
# No contract is broken

Some operations have a precondition that their caller has to keep. Those that read a text keep all of them, whatever
is read, and whatever fails on the way; so do the operators on tokens, if a lexer returned these.

* `File.lawful`: whatever a file reports, it is no broken contract.
* `Reply.tokens`, `Token.Lexed`: the tokens that lexers return.
* `Lexer.answers_lawful`: calls of a lexer.
* `Token.trimmed`, **`Token.trim_eq`**: trimming takes a part of the tokens, and its bounds are those of a part.
* `Token.paste_ok`, `Token.stringize_ok`, `Token.reparseInclude_ok`: the operators on tokens.
* **`no_violation`**: all of it.
-/

namespace Pretoken

open ScanM (Fares)

/-! ## Sources -/

namespace File

variable {Good : Glyph → Prop} (hG : Glyph.Closed Good)

/-- What comes out of a file that reads is no broken contract. -/
theorem take_lawful (Good : Glyph → Prop) (R : LineReader → Prop) :
    Fares (Fine Good R) Source.take (fun _ _ => True) fun e _ => ∀ v, e ≠ .violation v := by
  rintro ⟨⟨reader, name, place, returned⟩, log⟩ -
  change Issue _ _ (take _)
  unfold take readGlyph
  cases returned with
  | cons g gs => exact trivial
  | nil =>
    dsimp only
    cases reader.read with
    | ok o r => cases o <;> exact trivial
    | error e r =>
      intro v
      rw [ReadError.locate]
      split <;> simp

/-- The upkeep of a file whatever it is read from. A failure is no broken contract. -/
def lawful : Upkeep File :=
  (upkeep hG LineReader.lasts_true).leaving (take_lawful Good fun _ => True) fun hg s _ => by
    change Issue _ _ (giveBack _ s)
    rw [giveBack_ok (hG.placed hg).isEof]
    exact trivial

theorem fine_lawful (feed : Feed) (name : Option String) : (lawful hG).Fine (.ofFeed feed name) :=
  ⟨nofun, trivial⟩

end File

/-- The upkeep of a replay, which never fails. -/
def Replay.upkeep {Good : Glyph → Prop} (hG : Glyph.Closed Good) : Upkeep Replay where
  Good := Good
  Fine r := ∀ g ∈ r.coming, Good g
  Failed _ _ := False
  closed := hG
  take := by
    rintro ⟨⟨coming, name, finish⟩, log⟩ hs
    change Issue _ _ (take _)
    cases coming with
    | nil => exact ⟨nofun, hs⟩
    | cons g gs => exact ⟨hG.admitted (hs g List.mem_cons_self), fun k hk => hs k (List.mem_cons_of_mem g hk)⟩
  giveBack := by
    intro g hg s hs
    change Issue _ _ (giveBack g s)
    rw [giveBack, (hG.placed hg).isEof, if_neg Bool.false_ne_true]
    intro k hk
    rcases List.mem_cons.1 hk with rfl | hk
    · exact hg
    · exact hs k hk

/-! ## Lexers -/

namespace Phases

variable {Good : Glyph → Prop} (hG : Glyph.Closed Good)

/-- The same for the phases. -/
def lawful : Upkeep Phases := (File.lawful hG).trigraph.splice

variable {hG}

theorem fine_of_failed {e : Fault} {s : Phases} (h : (lawful hG).Failed e s) :
    (lawful hG).Fine s :=
  ⟨h.1.1, h.2⟩

end Phases

/-- The token that a call returned, and its children. -/
def Reply.tokens : Reply → List Token
  | token (.ok (some t)) => t :: t.children
  | token _ | ending _ | place _ => []

/-- A lexer returned the token, or one of which it is a child: from any bytes, and after any other calls. -/
def Token.Lexed [Alphabet] (t : Token) : Prop :=
  ∃ (feed : Feed) (name : Option String) (trigraphs : Bool) (reserved : List String) (requests : List Request)
    (replies : List Reply) (r : Reply),
    ((Lexer.answers requests).run (.ofFile (.ofFeed feed name) trigraphs reserved)).1 = .ok replies ∧
      r ∈ replies ∧ t ∈ r.tokens

/-- The token is made of characters with a place in some text. -/
def Token.Solid (t : Token) : Prop := t.glyphs ≠ [] ∧ ∀ g ∈ t.glyphs, g.Placed

namespace Lexer

/-- **A lexer keeps all contracts**, and its tokens are made of good characters. -/
theorem answers_lawful [Alphabet] {Good : Glyph → Prop} (hG : Glyph.Closed Good) (requests : List Request) (feed : Feed)
    (name : Option String) (trigraphs : Bool) (reserved : List String) :
    ∃ replies, ((answers requests).run (ofFile (.ofFeed feed name) trigraphs reserved)).1 = .ok replies ∧
      ∀ r ∈ replies, (∀ v, r.fault? ≠ some (.violation v)) ∧
        ∀ t ∈ r.tokens, t.glyphs ≠ [] ∧ ∀ g ∈ t.glyphs, Good g := by
  have hfine : (Phases.lawful hG).Fine (.ofFile (.ofFeed feed name) trigraphs) :=
    ⟨File.fine_lawful hG feed name, nofun⟩
  have hanswer {request : Request} {reply : Reply} {l l' : Logged (Lexer Phases)}
      (h : (Phases.lawful hG).Fine l.state.source) (ha : answer request l = .ok reply l') :
      (∀ v, reply.fault? ≠ some (.violation v)) ∧ ∀ t ∈ reply.tokens, t.glyphs ≠ [] ∧ ∀ g ∈ t.glyphs, Good g := by
    refine ⟨fun v hv => (failed_of_answer h ha hv).1.2 v rfl, fun t ht => ?_⟩
    match reply, ha, ht with
    | .token (.ok (some u)), ha, ht =>
      obtain ⟨hu, hc⟩ := whole_of_answer h ha
      rcases List.mem_cons.1 ht with rfl | ht
      · exact hu
      · exact (hc t ht).1
  obtain ⟨replies, l', hl', hall⟩ := forall_answers Phases.fine_of_failed hanswer requests
    (l := ⟨ofFile (.ofFeed feed name) trigraphs reserved, []⟩) hfine
  exact ⟨replies, by rw [ScanM.run_of_ok hl'], hall⟩

end Lexer

namespace Token

/-- **A token of a lexer is made of good characters**, whichever they are. -/
theorem Lexed.made [Alphabet] {Good : Glyph → Prop} (hG : Glyph.Closed Good) {t : Token} (h : t.Lexed) :
    t.glyphs ≠ [] ∧ ∀ g ∈ t.glyphs, Good g := by
  obtain ⟨feed, name, trigraphs, reserved, requests, replies, r, hrun, hr, ht⟩ := h
  obtain ⟨replies', hrun', hall⟩ := Lexer.answers_lawful hG requests feed name trigraphs reserved
  cases hrun.symm.trans hrun'
  exact (hall r hr).2 t ht

theorem Lexed.solid [Alphabet] {t : Token} (h : t.Lexed) : t.Solid := h.made Glyph.closed_placed

/-- What calls about some text return are tokens of a lexer. -/
theorem lexed_of_run [Alphabet] {feed : Feed} {name : Option String} {trigraphs : Bool} {reserved : List String}
    {requests : List Request} {ts : List Token} {t : Token}
    (h : ((Lexer.answers requests).run (.ofFile (.ofFeed feed name) trigraphs reserved)).1.toOption.map
      (·.flatMap Reply.tokens) = some ts) (ht : t ∈ ts) : t.Lexed := by
  obtain ⟨replies, hr, rfl⟩ := Option.map_eq_some_iff.1 h
  obtain ⟨r, hmem, ht⟩ := List.mem_flatMap.1 ht
  match hrun : ((Lexer.answers requests).run (.ofFile (.ofFeed feed name) trigraphs reserved)).1, hr with
  | .ok _, rfl => exact ⟨feed, name, trigraphs, reserved, requests, replies, r, hrun, hmem, ht⟩

variable {σ : Type}

/-! ## Operators -/

/-- Reading a text on its own may come to a failure, but keeps all contracts. -/
theorem relex_lawful [Alphabet] (text : String) (s : Logged σ) :
    (∃ ts s', relex text s = .ok ts s') ∨ ∃ e s', relex text s = .error e s' ∧ ∀ v, e ≠ .violation v := by
  have hfine := File.fine_lawful Glyph.closed_placed [.bytes text.toUTF8.toList] none
  have hall := (File.lawful Glyph.closed_placed).readAll Table.fits_text
    ⟨Scanner.ofSource (File.ofString text none), s.log⟩ ⟨rfl, hfine⟩
  rw [relex, ScanM.aside, onPart]
  cases hr : Scanner.readAll .text ⟨Scanner.ofSource (File.ofString text none), s.log⟩ with
  | ok ts u => exact .inl ⟨ts, _, rfl⟩
  | error e u =>
    rw [hr] at hall
    exact .inr ⟨e, _, rfl, hall.2⟩

theorem kindOf_ok [Alphabet] (text : String) (s : Logged σ) : ∃ k s', kindOf text s = .ok k s' := by
  obtain ⟨ts, s', h⟩ | ⟨e, s', h, he⟩ := relex_lawful text s
  · have hread : attempt (relex text) s = .ok (.ok ts) s' := by rw [attempt, h]
    rw [kindOf, bind_of_ok hread]
    rcases ts with _ | ⟨t, _ | ⟨u, ts⟩⟩ <;> exact ⟨_, _, rfl⟩
  · have hread : attempt (relex text) s = .ok (.error e) s' := by rw [attempt, h]
    rw [kindOf, bind_of_ok hread]
    cases e with
    | io | invalidEncoding => exact ⟨_, _, rfl⟩
    | violation v => exact absurd rfl (he v)

theorem Solid.isEof {t : Token} (h : t.Solid) {g : Glyph} (hg : g ∈ t.glyphs) : g.isEof = false := (h.2 g hg).isEof

theorem placed_of_solid {ts : List Token} (h : ∀ t ∈ ts, t.Solid) : ∀ g ∈ ts.flatMap glyphs, g.Placed := by
  intro g hg
  obtain ⟨t, ht, hg⟩ := List.mem_flatMap.1 hg
  exact (h t ht).2 g hg

/-- **Two tokens are joined**: the glyphs of both, of the kind of a reserved word or of the text read on its own. -/
theorem paste_gives [Alphabet] {left right : Token} (hl : left.Solid) (hr : right.Solid) (reserved : List String)
    (s : Logged σ) : ∃ k s', paste reserved left right s = .ok ⟨left.glyphs ++ right.glyphs, k, []⟩ s' ∧
      if String.ofList (Glyph.spelling (left.glyphs ++ right.glyphs)) ∈ reserved then k = .reserved
      else kindOf (String.ofList (Glyph.spelling (left.glyphs ++ right.glyphs))) s = .ok k s' := by
  unfold paste
  have hne : left.glyphs ++ right.glyphs ≠ [] := List.append_ne_nil_of_left_ne_nil hl.1 _
  have hplaced : ∀ g ∈ left.glyphs ++ right.glyphs, g.Placed := fun g hg =>
    (List.mem_append.1 hg).elim (hl.2 g) (hr.2 g)
  generalize hd : (⟨(left.glyphs ++ right.glyphs).reverse⟩ : Draft) = draft
  have hglyphs : draft.glyphs = left.glyphs ++ right.glyphs := by
    rw [← hd]
    exact List.reverse_reverse _
  rw [← hglyphs] at hne hplaced ⊢
  have htext : (ScanM.require draft.text : ScanM σ String) s =
      .ok (String.ofList (Glyph.spelling draft.glyphs)) s := by
    have hempty : draft.isEmpty = false := by simpa [Draft.glyphs, Draft.isEmpty] using hne
    rw [Draft.text, hempty, if_neg Bool.false_ne_true]
    rfl
  have htoken (k : TokenKind) (s : Logged σ) :
      ScanM.require (draft.toToken k) s = .ok ⟨draft.glyphs, k, []⟩ s := by
    rw [Draft.toToken_of_placed k hne hplaced]
    rfl
  rw [bind_of_ok htext]
  split
  · exact ⟨.reserved, s, htoken .reserved s, rfl⟩
  · obtain ⟨k, s', hk⟩ := kindOf_ok (String.ofList (Glyph.spelling draft.glyphs)) s
    rw [bind_of_ok hk]
    exact ⟨k, s', htoken k s', hk⟩

/-- **Two tokens can be joined.** -/
theorem paste_ok [Alphabet] {left right : Token} (hl : left.Solid) (hr : right.Solid) (reserved : List String)
    (s : Logged σ) : ∃ t s', paste reserved left right s = .ok t s' := by
  obtain ⟨k, s', h, -⟩ := paste_gives hl hr reserved s
  exact ⟨_, s', h⟩

/-- What stands in a literal was added, or belongs to one of the tokens. -/
theorem mem_literalBody {added : Char → Glyph} {spaced : Bool} {ts : List Token} {g : Glyph}
    (hg : g ∈ literalBody added spaced ts) : (∃ c, g = added c) ∨ ∃ t ∈ ts, g ∈ t.glyphs := by
  induction ts generalizing spaced with
  | nil => cases hg
  | cons t ts ih =>
    have hrest {spaced : Bool} (hg : g ∈ literalBody added spaced ts) :
        (∃ c, g = added c) ∨ ∃ u ∈ t :: ts, g ∈ u.glyphs :=
      (ih hg).imp_right fun ⟨u, hu, hgu⟩ => ⟨u, List.mem_cons_of_mem t hu, hgu⟩
    rw [literalBody] at hg
    split at hg
    · split at hg
      · exact hrest hg
      · rcases List.mem_cons.1 hg with rfl | hg
        · exact .inl ⟨' ', rfl⟩
        · exact hrest hg
    · rcases List.mem_append.1 hg with hg | hg
      · obtain ⟨k, hk, hg⟩ := List.mem_flatMap.1 hg
        have hcases : g = added '\\' ∨ g = k := by
          split at hg
          · simpa using hg
          · exact .inr (List.mem_singleton.1 hg)
        rcases hcases with rfl | rfl
        · exact .inl ⟨'\\', rfl⟩
        · exact .inr ⟨t, List.mem_cons_self, hk⟩
      · exact hrest hg

section Trim

variable {ts : List Token}

/-- Some tokens without white space at either end. -/
def trimmed (ts : List Token) : List Token :=
  (ts.dropWhile (·.kind.isSpace)).rdropWhile (·.kind.isSpace)

/-- How many tokens there are before the first one that is no white space. -/
def leading (ts : List Token) : Nat := ts.findIdx (!·.kind.isSpace)

/-- White space at the beginning and at the end does not overlap, unless there is nothing else. -/
theorem leading_add_leading_reverse_lt (h : leading ts < ts.length) :
    leading ts + leading ts.reverse < ts.length := by
  by_contra hover
  have hbefore : ts.length - 1 - leading ts < leading ts.reverse := by omega
  have hspace := List.not_of_lt_findIdx hbefore
  have hvisible := List.findIdx_getElem (w := h)
  have hsame : ts.length - 1 - (ts.length - 1 - leading ts) = leading ts := by omega
  simp only [List.getElem_reverse, hsame] at hspace
  exact Bool.false_ne_true (hspace.symm.trans hvisible)

theorem leading_eq_length_iff : leading ts = ts.length ↔ ∀ t ∈ ts, t.kind.isSpace = true := by
  rw [leading, List.findIdx_eq_length]
  simp

theorem trimmed_eq (ts : List Token) :
    trimmed ts = (ts.drop (leading ts)).take (ts.length - leading ts - leading ts.reverse) := by
  have hcut (n m : Nat) : n - min n m = n - m := by omega
  rw [trimmed, List.rdropWhile, List.dropWhile_eq_drop_findIdx_not, List.dropWhile_eq_drop_findIdx_not,
    List.drop_reverse, List.reverse_reverse, List.reverse_drop, List.findIdx_take, List.length_drop, hcut]
  rfl

theorem lastVisible?_eq (h : leading ts < ts.length) :
    lastVisible? ts = some (ts.length - 1 - leading ts.reverse) := by
  have hlt := leading_add_leading_reverse_lt h
  have hfound : ts.reverse.findIdx? (!·.kind.isSpace) = some (leading ts.reverse) := by
    rw [List.findIdx?_eq_some_iff_findIdx_eq, List.length_reverse]
    exact ⟨by omega, rfl⟩
  rw [lastVisible?, hfound, Option.map_some]

theorem lastVisible?_eq_none (h : leading ts = ts.length) : lastVisible? ts = none := by
  rw [lastVisible?, Option.map_eq_none_iff, List.findIdx?_eq_none_iff]
  intro t ht
  rw [leading_eq_length_iff.1 h t (List.mem_reverse.1 ht)]
  rfl

/-- **White space can be trimmed**: the first and the last visible token bound a part of the tokens. -/
theorem trim_eq (ts : List Token) : trim ts = .ok (trimmed ts) := by
  have hfirst : (firstVisible? ts).getD ts.length = leading ts := List.findIdx_eq_getD_findIdx?.symm
  rw [trim, hfirst, trimmed_eq]
  have hle : leading ts ≤ ts.length := List.findIdx_le_length
  rcases Nat.lt_or_eq_of_le hle with h | h
  · have hlt := leading_add_leading_reverse_lt h
    have hstop : ts.length - 1 - leading ts.reverse + 1 = ts.length - leading ts.reverse := by omega
    have hcount : ts.length - leading ts.reverse - leading ts = ts.length - leading ts - leading ts.reverse := by
      omega
    rw [lastVisible?_eq h, Option.elim_some, hstop, slice, if_neg (by omega), if_neg (by omega), hcount]
  · -- all of it is white space, and there is nothing between the bounds
    rw [lastVisible?_eq_none h, Option.elim_none, h, slice, if_neg (by omega), if_neg (by omega), List.drop_length,
      List.take_nil, List.take_nil]
theorem mem_of_mem_trimmed {t : Token} (h : t ∈ trimmed ts) : t ∈ ts :=
  (List.dropWhile_sublist _).subset ((List.rdropWhile_prefix _ _).subset h)

theorem stringize_eq_make (ts : List Token) (place : Location) :
    stringize ts place = make (.plain '"' ((trimmed ts).head?.bind file?) place ::
      literalBody (.plain · ((trimmed ts).head?.bind file?) place) false (trimmed ts) ++
        [.plain '"' ((trimmed ts).head?.bind file?) place]) .string := by
  rw [stringize, trim_eq]
  rfl

end Trim

/-- **Tokens can be made a string literal.** -/
theorem stringize_ok {ts : List Token} (h : ∀ t ∈ ts, t.Solid) (place : Location) :
    ∃ t, stringize ts place = .ok t := by
  rw [stringize_eq_make]
  refine ⟨_, make_eq_ok_iff.2 ⟨by simp, fun g hg => ?_, rfl⟩⟩
  rcases List.mem_append.1 hg with hg | hg
  · rcases List.mem_cons.1 hg with rfl | hg
    · rfl
    · rcases mem_literalBody hg with ⟨c, rfl⟩ | ⟨t, ht, hg⟩
      · rfl
      · exact (h t (mem_of_mem_trimmed ht)).isEof hg
  · rw [List.mem_singleton.1 hg]
    rfl

/-- **Tokens can be read again as an operand**, and nothing fails. -/
theorem reparseInclude_ok [Alphabet] {ts : List Token} (h : ∀ t ∈ ts, t.Solid) (reserved : List String)
    (file : Option String) (s : Logged σ) : ∃ us s', reparseInclude reserved ts file s = .ok us s' := by
  have hall := (Replay.upkeep Glyph.closed_placed).readFrom reserved .operand
    ⟨.ofScanner (.ofSource (.ofGlyphs (ts.flatMap glyphs) file)), s.log⟩ ⟨⟨rfl, placed_of_solid h⟩, nofun⟩
  rw [← DirectiveLine.readInclude_eq_loop] at hall
  rw [reparseInclude, ScanM.aside, onPart]
  cases hr : DirectiveLine.readInclude reserved
      ⟨.ofScanner (.ofSource (Replay.ofGlyphs (ts.flatMap glyphs) file)), s.log⟩ with
  | ok _ u =>
    rw [bind_of_ok hr]
    exact ⟨_, _, rfl⟩
  | error e u =>
    rw [hr] at hall
    exact False.elim hall

end Token

/-- **No contract is broken.** Whatever bytes and failures are fed to a lexer, in whatever pieces, and whatever is
asked of it, also after failures: no call reports a broken contract. The array that the bytes are decoded in is never
left, and the index of each table leads to a case. Tokens of lexers can be joined, made a string literal, and read again
as an operand, and the last never fails. -/
theorem no_violation [Alphabet] :
    (∀ (feed : Feed) (name : Option String) (trigraphs : Bool) (reserved : List String)
      (requests : List Request), ∃ replies : List Reply,
        ((Lexer.answers requests).run (.ofFile (.ofFeed feed name) trigraphs reserved)).1 = .ok replies ∧
        ∀ r ∈ replies, ∀ v, r.fault? ≠ some (.violation v)) ∧
    (∀ (feed : Feed) (n : Nat), ∃ rs d b, Decoder.calls n (.ofFeed feed) = .ok rs d ∧
      Buffer.calls n (.ofFeed feed) = .ok (rs.map (Except.mapError Mishap.failed)) b) ∧
    (Table.text.Indexed ∧ Table.directive.Indexed ∧ Table.includeOperand.Indexed) ∧
    (∀ (reserved : List String) (left right : Token), left.Lexed → right.Lexed →
      ∀ (σ : Type) (s : σ), ∃ t, ((Token.paste reserved left right).run s).1 = .ok t) ∧
    (∀ (ts : List Token) (place : Location), (∀ t ∈ ts, t.Lexed) → ∃ t, Token.stringize ts place = .ok t) ∧
    (∀ (reserved : List String) (ts : List Token) (file : Option String), (∀ t ∈ ts, t.Lexed) →
      ∀ (σ : Type) (s : σ), ∃ us, ((Token.reparseInclude reserved ts file).run s).1 = .ok us) := by
  refine ⟨?_, ?_, ⟨Table.indexed_text, Table.indexed_directive, Table.indexed_includeOperand⟩, ?_, ?_, ?_⟩
  · intro feed name trigraphs reserved requests
    obtain ⟨replies, hrun, hall⟩ := Lexer.answers_lawful Glyph.closed_placed requests feed name trigraphs reserved
    exact ⟨replies, hrun, fun r hr => (hall r hr).1⟩
  · intro feed n
    obtain ⟨rs, b, d, hd, hb, -⟩ := Buffer.calls_mirrors n (Buffer.ofFeed_shows feed)
    exact ⟨rs, d, b, hd, hb⟩
  · intro reserved left right hl hr σ s
    obtain ⟨t, s', hs'⟩ := Token.paste_ok hl.solid hr.solid reserved (⟨s, []⟩ : Logged σ)
    exact ⟨t, by rw [ScanM.run_of_ok hs']⟩
  · intro ts place h
    exact Token.stringize_ok (fun t ht => (h t ht).solid) place
  · intro reserved ts file h σ s
    obtain ⟨us, s', hs'⟩ := Token.reparseInclude_ok (fun t ht => (h t ht).solid) reserved file (⟨s, []⟩ : Logged σ)
    exact ⟨us, by rw [ScanM.run_of_ok hs']⟩

/-- Two tokens of a text, the second of them a child of a directive that fails to end. -/
theorem no_violation_name_less :
    ∃ name less : Token, (name.Lexed ∧ less.Lexed) ∧ name.value = "a" ∧ less.value = "<" ∧
      (∃ t, ((Token.paste [] name less).run ()).1 = .ok t) ∧
      (∃ t, Token.stringize [name, less] .origin = .ok t) ∧
      ∃ us, ((Token.reparseInclude [] [less, name] none).run ()).1 = .ok us := by
  have hrun : ((Lexer.answers [.next, .next, .next]).run
      (.ofFile (.ofFeed [.bytes [97, 10, 35], .bytes [60]] none) false [])).1.toOption.map
        (·.flatMap Reply.tokens) = some [
      ⟨[.plain 'a' none .origin], .identifier, []⟩,
      ⟨[.plain '\n' none (Location.origin.after ['a'])], .delimiter, []⟩,
      ⟨[.plain '#' none (Location.origin.after ['a', '\n'])], .directive,
        [⟨[.plain '<' none (Location.origin.after ['a', '\n', '#'])], .operator, []⟩]⟩,
      ⟨[.plain '<' none (Location.origin.after ['a', '\n', '#'])], .operator, []⟩] := by
    decide +kernel
  have hname := Token.lexed_of_run hrun List.mem_cons_self
  have hless := Token.lexed_of_run hrun (List.mem_of_getElem? (i := 3) rfl)
  obtain ⟨-, -, -, hpaste, hstring, hreparse⟩ := no_violation
  refine ⟨_, _, ⟨hname, hless⟩, rfl, rfl, hpaste [] _ _ hname hless Unit (), hstring _ _ ?_,
    hreparse [] _ none ?_ Unit ()⟩
  · simpa using ⟨hname, hless⟩
  · simpa using ⟨hless, hname⟩

end Pretoken
