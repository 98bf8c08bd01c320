import Pretoken.Lexer
import Pretoken.Proofs.Fitting
import Pretoken.Proofs.Triple

/-!
# What is made of the tokens of a scanner

A directive line and a lexer take one token after the other from a scanner. Here is what they make of it,
given what the scanner does.

The name of a directive, its operand and its body are read one after the other. Seen from outside this is
one loop: what comes next is a matter of the place in the line.

* `LinePlace`: where in its line a directive stands.
* `LinePlace.mark`, `LinePlace.next`: what becomes of a token, and what comes after it.
* `DirectiveLine.lineTurn_some`, `DirectiveLine.lineTurn_none`: a turn of the loop.
* **`DirectiveLine.readDirective_eq_loop`**: reading a directive is that loop.
* `Lexer.classify_plain`, `Lexer.classify_directive`: a token as such, and one that begins a directive.
* `Lexer.nextToken_plain`, `Lexer.nextToken_directive`: the next token of a lexer.
* `Lexer.tokens_none`, `Lexer.tokens_some`, `Lexer.tokens_error`: all of them.
* `Lexer.Yields`, `Lexer.Reads`: some tokens one after the other, and all of them with the end.
-/

namespace Pretoken

/-- Where in its line a directive stands. -/
inductive LinePlace where
  /-- Before the name. -/
  | name
  /-- Before the operand of an `include` directive. -/
  | operand
  /-- After the name, or after the operand. -/
  | body
deriving DecidableEq, Repr

namespace LinePlace

/-- The table of the place. -/
def table : LinePlace → Table
  | operand => .includeOperand
  | name | body => .directive

theorem fits (place : LinePlace) : place.table.fits = true := by
  cases place with
  | name | body => exact Table.fits_directive
  | operand => exact Table.fits_includeOperand

/-- What is noted if the input ends here. -/
def truncation : LinePlace → Event
  | operand => .includeTruncated
  | name | body => .directiveTruncated

/-- Whether the token is in the place of a name. -/
def names (place : LinePlace) (t : Token) : Bool :=
  place == name && !t.kind.isSpace && t.kind != .directiveEnd

/-- What is noted about a token. -/
def note? (place : LinePlace) (t : Token) : Option Event :=
  if place.names t then
    some (if isDirectiveName t.value then .directive t.value t.span else .unknownDirective t.value t.span)
  else none

/-- The token as it stands in the line: a known name is marked as one. -/
def mark (place : LinePlace) (t : Token) : Token :=
  if place.names t && isDirectiveName t.value then t.withKind .directiveName else t

/-- What comes after a token: nothing after the end of the line. -/
def next (place : LinePlace) (t : Token) : Turn LinePlace Unit :=
  if t.kind = .directiveEnd then .done ()
  else if place ≠ body ∧ t.kind.isSpace then .again place
  else if place = name ∧ t.value = "include" then .again operand
  else .again body

@[simp] theorem glyphs_mark (place : LinePlace) (t : Token) : (place.mark t).glyphs = t.glyphs := by
  unfold mark
  split <;> rfl

@[simp] theorem children_mark (place : LinePlace) (t : Token) : (place.mark t).children = t.children := by
  unfold mark
  split <;> rfl

end LinePlace

@[simp] theorem Token.glyphs_reserve (reserved : List String) (t : Token) :
    (t.reserve reserved).glyphs = t.glyphs := by
  unfold Token.reserve
  split <;> rfl

@[simp] theorem Token.children_reserve (reserved : List String) (t : Token) :
    (t.reserve reserved).children = t.children := by
  unfold Token.reserve
  split <;> rfl

@[simp] theorem Token.value_reserve (reserved : List String) (t : Token) :
    (t.reserve reserved).value = t.value := by
  rw [Token.value, Token.value, Token.glyphs_reserve]

@[simp] theorem Token.isName_reserve (reserved : List String) (t : Token) :
    (t.reserve reserved).kind.isName = t.kind.isName := by
  unfold Token.reserve
  split
  · next h => rw [h.1]; rfl
  · rfl

theorem Token.kind_reserve_eq_directiveEnd {reserved : List String} {t : Token} :
    (t.reserve reserved).kind = .directiveEnd ↔ t.kind = .directiveEnd := by
  unfold Token.reserve
  split
  · next h => simp [Token.withKind, h.1]
  · rfl

/-- A token is a name before and after it takes its place in a line, if names of directives are
identifiers. -/
theorem LinePlace.isName_mark {reserved : List String} {place : LinePlace} {t : Token}
    (h : place = .name → isDirectiveName t.value = true → t.kind = .identifier) :
    (place.mark (t.reserve reserved)).kind.isName = t.kind.isName := by
  unfold mark
  split
  · next hm =>
    simp only [names, Bool.and_eq_true, beq_iff_eq, Token.value_reserve] at hm
    rw [h hm.1.1.1 hm.2]
    rfl
  · exact Token.isName_reserve reserved t

theorem LinePlace.kind_mark_eq_directiveEnd {place : LinePlace} {t : Token} :
    (place.mark t).kind = .directiveEnd ↔ t.kind = .directiveEnd := by
  unfold mark
  split
  · next h =>
    simp only [names, Bool.and_eq_true, bne_iff_ne] at h
    have hk : t.kind ≠ .directiveEnd := h.1.2
    simp [Token.withKind, hk]
  · rfl

theorem LinePlace.kind_of_next_eq_again {place next : LinePlace} {t : Token} (h : place.next t = .again next) :
    t.kind ≠ .directiveEnd := by
  intro hk
  rw [LinePlace.next, if_pos hk] at h
  cases h

theorem LinePlace.kind_of_next_eq_done {place : LinePlace} {t : Token} (h : place.next t = .done ()) :
    t.kind = .directiveEnd := by
  unfold next at h
  split at h
  · assumption
  · repeat' split at h
    all_goals cases h

variable [Alphabet]

namespace DirectiveLine

variable {σ : Type} [Source σ]

/-- Note something, if there is something. -/
def noteAll (e : Option Event) : ScanM (DirectiveLine σ) Unit :=
  match e with
  | some e => ScanM.emit e
  | none => pure ()

/-- Add a token to the line. -/
def lineTurn (reserved : List String) (place : LinePlace) :
    ScanM (DirectiveLine σ) (Turn LinePlace Unit) := do
  match ← readToken reserved place.table with
  | none =>
    ScanM.emit place.truncation
    return .done ()
  | some t =>
    noteAll (place.note? t)
    push (place.mark t)
    return place.next t

theorem lineTurn_within (reserved : List String) (place : LinePlace) :
    Within measure 0 (lineTurn reserved place : ScanM (DirectiveLine σ) _) Turn.toll :=
  (readToken_within reserved place.table).bind fun t => by
    match t with
    | none => exact (ScanM.emit_within _).bind fun _ => .pure _ (Nat.le_refl _)
    | some t =>
      have hn : Within measure 1 (noteAll (place.note? t) : ScanM (DirectiveLine σ) Unit) fun _ => 1 := by
        unfold noteAll
        split
        · exact ScanM.emit_within _
        · exact .pure _ (Nat.le_refl _)
      exact hn.bind fun _ => (push_within _ 1).bind fun _ => .pure _ (by
        cases place.next t <;> simp [Turn.toll])

/-- The tokens of a line from a place on. -/
def readFrom (reserved : List String) (place : LinePlace) : ScanM (DirectiveLine σ) Unit :=
  loop measure (lineTurn reserved) (fun place => (lineTurn_within reserved place).draws) place

/-! ## A turn -/

section Turn

variable {reserved : List String} {table : Table} {place : LinePlace} {s : Logged (DirectiveLine σ)}
  {u : Logged (Scanner σ)}

theorem readToken_ok {o : Option Token} (h : Scanner.readToken table ⟨s.state.scanner, s.log⟩ = .ok o u) :
    readToken reserved table s =
      .ok (o.map (Token.reserve reserved)) ⟨⟨u.state, s.state.newestFirst⟩, u.log⟩ := by
  have hm : (Option.map (Token.reserve reserved) <$> Scanner.readToken table) ⟨s.state.scanner, s.log⟩ =
      .ok (o.map (Token.reserve reserved)) u := by
    change EStateM.map _ _ _ = _
    rw [EStateM.map, h]
  rw [readToken, ScanM.onState, onPart, hm]

theorem lineTurn_none (h : Scanner.readToken place.table ⟨s.state.scanner, s.log⟩ = .ok none u) :
    lineTurn reserved place s =
      .ok (.done ()) ⟨⟨u.state, s.state.newestFirst⟩, place.truncation :: u.log⟩ := by
  simp only [lineTurn, bind, EStateM.bind, readToken_ok h]
  rfl

theorem lineTurn_some {t : Token}
    (h : Scanner.readToken place.table ⟨s.state.scanner, s.log⟩ = .ok (some t) u) :
    lineTurn reserved place s = .ok (place.next (t.reserve reserved))
      ⟨⟨u.state, place.mark (t.reserve reserved) :: s.state.newestFirst⟩,
        (place.note? (t.reserve reserved)).toList ++ u.log⟩ := by
  simp only [lineTurn, bind, EStateM.bind, readToken_ok h, Option.map_some]
  cases place.note? (t.reserve reserved) <;> rfl

theorem readFrom_again {next : LinePlace} {s' : Logged (DirectiveLine σ)}
    (h : lineTurn reserved place s = .ok (.again next) s') :
    readFrom reserved place s = readFrom reserved next s' := by
  rw [readFrom, loop_eq, h]
  rfl

theorem readFrom_done {s' : Logged (DirectiveLine σ)} (h : lineTurn reserved place s = .ok (.done ()) s') :
    readFrom reserved place s = .ok () s' := by
  rw [readFrom, loop_eq, h]

end Turn

variable (reserved : List String)

/-! ## One loop -/

/-- What is still to be read of a line, from a place on. -/
def readRest : LinePlace → ScanM (DirectiveLine σ) Unit
  | .name => readDirective reserved
  | .operand => readInclude reserved
  | .body => readBody reserved

theorem skipSpace_eq (table : Table) :
    (skipSpace reserved table : ScanM (DirectiveLine σ) (Option Token)) = do
      match ← readToken reserved table with
      | none => return none
      | some t =>
        if t.kind.isSpace then
          push t
          skipSpace reserved table
        else return some t := by
  conv => lhs; rw [skipSpace, loop_eq_bind]
  simp only [skipTurn, bind_assoc]
  refine bind_congr fun o => ?_
  cases o with
  | none => simp only [pure_bind, Turn.follow]
  | some t =>
    simp only
    split
    · simp only [bind_assoc, pure_bind, Turn.follow, skipSpace]
    · simp only [pure_bind, Turn.follow]

theorem readRest_eq (place : LinePlace) :
    readRest reserved place = lineTurn reserved place >>= Turn.follow (readRest (σ := σ) reserved) := by
  -- Both sides read a token; what becomes of it is a matter of its kind, its value and the place.
  cases place with
  | body =>
    simp only [readRest, readBody]
    rw [loop_eq_bind]
    simp only [bodyTurn, lineTurn, bind_assoc]
    refine bind_congr fun o => ?_
    cases o with
    | none => simp [Turn.follow, LinePlace.truncation]
    | some t =>
      simp only [LinePlace.note?, LinePlace.names, LinePlace.mark, LinePlace.next]
      by_cases hk : t.kind = .directiveEnd
      · simp [hk, noteAll, Turn.follow]
      · simp [hk, noteAll, Turn.follow, readRest, readBody]
  | operand =>
    simp only [readRest, readInclude]
    rw [skipSpace_eq]
    simp only [lineTurn, bind_assoc]
    refine bind_congr fun o => ?_
    cases o with
    | none => simp [Turn.follow, LinePlace.truncation]
    | some t =>
      simp only [LinePlace.note?, LinePlace.names, LinePlace.mark, LinePlace.next]
      by_cases hk : t.kind = .directiveEnd
      · simp [hk, noteAll, Turn.follow, TokenKind.isSpace]
      · by_cases hsp : t.kind.isSpace
        · simp [hk, hsp, noteAll, Turn.follow, readRest, readInclude]
        · simp [hk, hsp, noteAll, Turn.follow, readRest]
  | name =>
    simp only [readRest, readDirective]
    rw [skipSpace_eq]
    simp only [lineTurn, bind_assoc]
    refine bind_congr fun o => ?_
    cases o with
    | none => simp [Turn.follow, LinePlace.truncation]
    | some t =>
      simp only [LinePlace.note?, LinePlace.names, LinePlace.mark, LinePlace.next]
      by_cases hk : t.kind = .directiveEnd
      · simp [hk, noteAll, Turn.follow, TokenKind.isSpace]
      · by_cases hsp : t.kind.isSpace
        · simp [hk, hsp, noteAll, Turn.follow, readRest, readDirective]
        · by_cases hd : isDirectiveName t.value
          · by_cases hi : t.value = "include"
            · rw [hi] at hd
              simp [hk, hsp, hd, hi, noteAll, Turn.follow, readRest]
            · simp [hk, hsp, hd, hi, noteAll, Turn.follow, readRest]
          · have hi : t.value ≠ "include" := fun h => hd (by rw [h]; decide)
            simp [hk, hsp, hd, hi, noteAll, Turn.follow, readRest]

/-- **Reading a directive is one loop.** -/
theorem readDirective_eq_loop :
    (readDirective reserved : ScanM (DirectiveLine σ) Unit) = readFrom reserved .name :=
  eq_loop (readRest_eq reserved) LinePlace.name

/-- Reading the operand of an `include` directive is a part of it. -/
theorem readInclude_eq_loop :
    (readInclude reserved : ScanM (DirectiveLine σ) Unit) = readFrom reserved .operand :=
  eq_loop (readRest_eq reserved) LinePlace.operand

end DirectiveLine

/-- The children of a directive are those of its line. -/
theorem Scanner.readDirective_ok {σ : Type} [Source σ] {reserved : List String} {s : Logged (Scanner σ)}
    {l : Logged (DirectiveLine σ)}
    (h : DirectiveLine.readFrom reserved .name ⟨.ofScanner s.state, s.log⟩ = .ok () l) :
    Scanner.readDirective reserved s = .ok l.state.children ⟨l.state.scanner, l.log⟩ := by
  rw [← DirectiveLine.readDirective_eq_loop] at h
  simp only [readDirective, ScanM.onState, onPart, bind, EStateM.bind, h]
  rfl

/-! ## Lexers -/

namespace Lexer

variable {σ : Type} [Source σ] {l : Logged (Lexer σ)} {u : Logged (Scanner σ)} {t : Token}

/-- Whether the lexer is at the start of a line after a token that begins no directive. -/
def startAfter (t : Token) (start : Bool) : Bool :=
  if t.kind.isSpace then start || decide (t.kind = .delimiter ∧ t.value = "\n") else false

/-- A token begins a directive. -/
def Opens (t : Token) (l : Lexer σ) : Prop :=
  t.kind = .punctuator ∧ t.value = "#" ∧ l.atLineStart = true

theorem classify_plain (h : ¬ Opens t l.state) :
    classify t l = .ok (t.reserve l.state.reserved)
      ⟨{ l.state with atLineStart := startAfter t l.state.atLineStart }, l.log⟩ := by
  unfold classify startAfter
  by_cases hs : t.kind.isSpace = true
  · have hr : t.reserve l.state.reserved = t := by
      rw [Token.reserve, if_neg fun hr => absurd hs (by rw [hr.1]; decide)]
    rw [if_pos hs, if_pos hs, hr]
    by_cases hn : t.kind = .delimiter ∧ t.value = "\n"
    · rw [if_pos hn, decide_eq_true hn, Bool.or_true]
      rfl
    · rw [if_neg hn, decide_eq_false hn, Bool.or_false]
      rfl
  · rw [if_neg hs, if_neg hs]
    have hif : ¬ (t.kind = .punctuator ∧ t.value = "#" ∧ l.state.atLineStart = true) := h
    simp only [bind, EStateM.bind, ScanM.view, if_neg hif, setLineStart, ScanM.change]
    rfl

omit [Source σ] [Alphabet] in
theorem withScanner_ok {α : Type} {m : ScanM (Scanner σ) α} {a : α}
    (h : m ⟨.ofSource l.state.source, l.log⟩ = .ok a u) :
    withScanner m l = .ok a ⟨{ l.state with source := u.state.source }, u.log⟩ := by
  rw [withScanner, ScanM.onState, onPart, h]

theorem classify_directive (h : Opens t l.state) {cs : List Token}
    (hc : Scanner.readDirective l.state.reserved ⟨.ofSource l.state.source, l.log⟩ = .ok cs u) :
    classify t l = .ok ((t.withKind .directive).withChildren cs)
      ⟨{ l.state with source := u.state.source }, u.log⟩ := by
  have hif : t.kind = .punctuator ∧ t.value = "#" ∧ l.state.atLineStart = true := h
  unfold classify
  rw [if_neg (by rw [h.1]; decide)]
  simp only [bind, EStateM.bind, ScanM.view, if_pos hif, withScanner_ok hc]
  rfl

theorem nextToken_none (h : Scanner.readToken .text ⟨.ofSource l.state.source, l.log⟩ = .ok none u) :
    nextToken l = .ok none ⟨{ l.state with source := u.state.source }, u.log⟩ := by
  simp only [nextToken, bind, EStateM.bind, withScanner_ok h]
  rfl

theorem nextToken_some (h : Scanner.readToken .text ⟨.ofSource l.state.source, l.log⟩ = .ok (some t) u)
    {t' : Token} {l' : Logged (Lexer σ)}
    (hc : classify t ⟨{ l.state with source := u.state.source }, u.log⟩ = .ok t' l') :
    nextToken l = .ok (some t') l' := by
  simp only [nextToken, bind, EStateM.bind, withScanner_ok h, hc]
  rfl

theorem nextToken_plain (h : Scanner.readToken .text ⟨.ofSource l.state.source, l.log⟩ = .ok (some t) u)
    (ho : ¬ Opens t l.state) :
    nextToken l = .ok (some (t.reserve l.state.reserved))
      ⟨{ l.state with source := u.state.source, atLineStart := startAfter t l.state.atLineStart }, u.log⟩ := by
  have hc := classify_plain (l := ⟨{ l.state with source := u.state.source }, u.log⟩) ho
  exact nextToken_some h hc

theorem nextToken_directive {v : Logged (Scanner σ)} {cs : List Token}
    (h : Scanner.readToken .text ⟨.ofSource l.state.source, l.log⟩ = .ok (some t) u) (ho : Opens t l.state)
    (hd : Scanner.readDirective l.state.reserved ⟨.ofSource u.state.source, u.log⟩ = .ok cs v) :
    nextToken l = .ok (some ((t.withKind .directive).withChildren cs))
      ⟨{ l.state with source := v.state.source }, v.log⟩ := by
  have hc := classify_directive (l := ⟨{ l.state with source := u.state.source }, u.log⟩) ho hd
  exact nextToken_some h hc

theorem tokens_none {l' : Logged (Lexer σ)} (h : nextToken l = .ok none l') :
    tokens l = .ok ([], .ok ()) l' := by
  refine gatherUntil_done ?_
  change EStateM.map _ _ l = _
  rw [EStateM.map, h]
  rfl

theorem tokens_error {l' : Logged (Lexer σ)} {e : Fault} (h : nextToken l = .error e l') :
    tokens l = .ok ([], .error e) l' := by
  refine gatherUntil_error ?_
  change EStateM.map _ _ l = _
  rw [EStateM.map, h]

theorem tokens_some {l' l'' : Logged (Lexer σ)} {ts : List Token} {r : Except Fault Unit}
    (h : nextToken l = .ok (some t) l') (h' : tokens l' = .ok (ts, r) l'') :
    tokens l = .ok (t :: ts, r) l'' := by
  have hm : (Turn.ofOption <$> nextToken) l = .ok (.again t) l' := by
    change EStateM.map _ _ l = _
    rw [EStateM.map, h]
    rfl
  rw [tokens, gatherUntil_again hm]
  change EStateM.map _ tokens l' = _
  rw [EStateM.map, h']

/-! ## Whole texts -/

/-- The lexer gives these tokens, one after the other. -/
def Yields : List Token → Logged (Lexer σ) → Logged (Lexer σ) → Prop
  | [], l, l' => l = l'
  | t :: ts, l, l'' => ∃ l', nextToken l = .ok (some t) l' ∧ Yields ts l' l''

/-- The lexer gives these tokens, and then the end `e`. -/
def Reads (ts : List Token) (e : Glyph) (l : Logged (Lexer σ)) : Prop :=
  ∃ l₁ l₂ l₃, Yields ts l l₁ ∧ nextToken l₁ = .ok none l₂ ∧ eof? l₂ = .ok (some e) l₃

theorem yields_append {ts us : List Token} {l l'' : Logged (Lexer σ)} :
    Yields (ts ++ us) l l'' ↔ ∃ l', Yields ts l l' ∧ Yields us l' l'' := by
  induction ts generalizing l with
  | nil =>
    constructor
    · intro h
      exact ⟨l, rfl, h⟩
    · rintro ⟨l', rfl, h⟩
      exact h
  | cons t ts ih =>
    constructor
    · rintro ⟨l₁, h₁, h⟩
      obtain ⟨l', h', hu⟩ := ih.1 h
      exact ⟨l', ⟨l₁, h₁, h'⟩, hu⟩
    · rintro ⟨l', ⟨l₁, h₁, h'⟩, hu⟩
      exact ⟨l₁, h₁, ih.2 ⟨l', h', hu⟩⟩

theorem tokens_of_yields {ts us : List Token} {r : Except Fault Unit} {l l' l'' : Logged (Lexer σ)}
    (h : Yields ts l l') (h' : tokens l' = .ok (us, r) l'') : tokens l = .ok (ts ++ us, r) l'' := by
  induction ts generalizing l with
  | nil =>
    obtain rfl : l = l' := h
    exact h'
  | cons t ts ih =>
    obtain ⟨l₁, h₁, h⟩ := h
    exact tokens_some h₁ (ih h)

theorem cases_of_tokens {ts : List Token} {l l'' : Logged (Lexer σ)} (h : tokens l = .ok (ts, .ok ()) l'') :
    (ts = [] ∧ nextToken l = .ok none l'') ∨
      ∃ t us l', ts = t :: us ∧ nextToken l = .ok (some t) l' ∧ tokens l' = .ok (us, .ok ()) l'' := by
  match hn : nextToken l with
  | .ok none l' =>
    rw [tokens_none hn] at h
    cases h
    exact .inl ⟨rfl, rfl⟩
  | .ok (some t) l' =>
    refine .inr ?_
    match ht : tokens l' with
    | .ok (us, r) l₂ =>
      rw [tokens_some hn ht] at h
      cases h
      exact ⟨t, us, l', rfl, rfl, ht⟩
    | .error e l₂ =>
      have hm : (Turn.ofOption <$> nextToken) l = .ok (.again t) l' := by
        change EStateM.map _ _ l = _
        rw [EStateM.map, hn]
        rfl
      rw [tokens, gatherUntil_again hm] at h
      change EStateM.map _ tokens l' = _ at h
      rw [EStateM.map, ht] at h
      cases h
  | .error e l' =>
    rw [tokens_error hn] at h
    cases h

/-- Tokens that end without a fault were given one after the other. -/
theorem exists_yields {ts : List Token} {l l'' : Logged (Lexer σ)} (h : tokens l = .ok (ts, .ok ()) l'') :
    ∃ l', Yields ts l l' ∧ nextToken l' = .ok none l'' := by
  induction ts generalizing l with
  | nil =>
    rcases cases_of_tokens h with ⟨-, hn⟩ | ⟨t, us, l', hts, -⟩
    · exact ⟨l, rfl, hn⟩
    · cases hts
  | cons t ts ih =>
    rcases cases_of_tokens h with ⟨hts, -⟩ | ⟨u, us, l₁, hts, hn, hus⟩
    · cases hts
    · cases hts
      obtain ⟨l', hy, hnone⟩ := ih hus
      exact ⟨l', ⟨l₁, hn, hy⟩, hnone⟩

theorem reads_append {ts us : List Token} {e : Glyph} {l l' : Logged (Lexer σ)} (h : Yields ts l l')
    (h' : Reads us e l') : Reads (ts ++ us) e l := by
  obtain ⟨l₁, l₂, l₃, hy, hn, he⟩ := h'
  exact ⟨l₁, l₂, l₃, yields_append.2 ⟨l', h, hy⟩, hn, he⟩

theorem run_of_reads {ts : List Token} {e : Glyph} {l : Lexer σ} (h : Reads ts e ⟨l, []⟩) :
    ((do return (← tokens, ← eof?)).run l).1 = .ok ((ts, .ok ()), some e) := by
  obtain ⟨l₁, l₂, l₃, hy, hn, he⟩ := h
  have ht := tokens_of_yields hy (tokens_none hn)
  rw [List.append_nil] at ht
  simp only [ScanM.run, bind, EStateM.bind, ht, he]
  rfl

end Lexer

end Pretoken
