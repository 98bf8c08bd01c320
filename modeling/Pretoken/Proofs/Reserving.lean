import Mathlib.Data.List.Forall2
import Pretoken.Proofs.Kinds
import Pretoken.Proofs.TokenSteps

/-!
# What reserved words change

Two lexers that differ in their reserved words read the same text in lockstep: they stand at the same place
of the source at all times, and a token that one of them calls reserved is an identifier for a lexer without
reserved words.

* `Token.Akin`, `Token.ReservedFrom`: how a token compares with the one that other words make of it.
* `Token.reserveAll`: a token as it is with some reserved words, its children included.
* `DirectiveLine.Passes`: the places that a directive goes through, and so the tables that it is read with.
* `DirectiveLine.lineTurn_reserving`, `Lexer.nextToken_reserving`: one turn of a line, one token of a lexer.
* `Lockstep.gatherUntil`: what two lexers gather, token by token.
* **`Lexer.tokens_reserving`**: reserved words affect nothing but their own classification.
-/

namespace Pretoken

/-! ## Tokens -/

namespace Token

/-- The two tokens are made of the same glyphs and are of the same kind, except that one may be a reserved
word where the other is an identifier. -/
structure Akin (t u : Token) : Prop where
  glyphs : t.glyphs = u.glyphs
  kind : t.kind = u.kind ∨ (t.kind = .reserved ∧ u.kind = .identifier) ∨
    (t.kind = .identifier ∧ u.kind = .reserved)

/-- The token `t` is a reserved word if and only if the token `bare`, which stands in its place when no word
is reserved, is an identifier and its text is one of the words. -/
def ReservedFrom (words : List String) (t bare : Token) : Prop :=
  t.kind = .reserved ↔ bare.kind = .identifier ∧ t.value ∈ words

/-- The token with its children as they are with some reserved words. -/
def reserveAll (words : List String) (t : Token) : Token :=
  (t.reserve words).withChildren (t.children.map (Token.reserve words))

/-- Neither the token nor one of its children is a reserved word. -/
def Bare (t : Token) : Prop := t.kind ≠ .reserved ∧ ∀ c ∈ t.children, c.kind ≠ .reserved

variable {words more : List String} {t : Token}

theorem reserve_nil (t : Token) : t.reserve [] = t :=
  if_neg fun h => List.not_mem_nil h.2

theorem reserve_of_ne (h : t.kind ≠ .identifier) : t.reserve words = t :=
  if_neg fun hr => h hr.1

@[simp] theorem isSpace_reserve (words : List String) (t : Token) :
    (t.reserve words).kind.isSpace = t.kind.isSpace := by
  unfold reserve
  split
  · next h => rw [h.1]; rfl
  · rfl

@[simp] theorem span_reserve (words : List String) (t : Token) : (t.reserve words).span = t.span := by
  unfold reserve
  split
  · cases t
    rfl
  · rfl

theorem akin_reserve (words more : List String) (t : Token) : (t.reserve words).Akin (t.reserve more) := by
  refine ⟨by rw [glyphs_reserve, glyphs_reserve], ?_⟩
  unfold reserve
  split
  · next h =>
    split
    · exact .inl rfl
    · exact .inr (.inl ⟨rfl, h.1⟩)
  · split
    · next h => exact .inr (.inr ⟨h.1, rfl⟩)
    · exact .inl rfl

theorem reservedFrom_reserve (h : t.kind ≠ .reserved) : (t.reserve words).ReservedFrom words t := by
  unfold ReservedFrom
  rw [value_reserve]
  unfold reserve
  split
  · next hr => exact ⟨fun _ => hr, fun _ => rfl⟩
  · next hr => exact ⟨fun hk => absurd hk h, fun hk => absurd hk hr⟩

theorem reserveAll_of_children (h : t.children = []) : t.reserveAll words = t.reserve words := by
  have hc : (t.reserve words).children = [] := (children_reserve words t).trans h
  rw [reserveAll, h, List.map_nil, ← hc]
  cases t.reserve words
  rfl

theorem reserveAll_directive (t : Token) (cs : List Token) :
    ((t.withKind .directive).withChildren cs).reserveAll words =
      (t.withKind .directive).withChildren (cs.map (Token.reserve words)) := by
  have hk : ((t.withKind .directive).withChildren cs).kind ≠ .identifier := by
    change TokenKind.directive ≠ _
    decide
  rw [reserveAll, reserve_of_ne hk]
  rfl

theorem akin_reserveAll (words more : List String) (t : Token) :
    (t.reserveAll words).Akin (t.reserveAll more) ∧
      List.Forall₂ Akin (t.reserveAll words).children (t.reserveAll more).children := by
  obtain ⟨hglyphs, hkind⟩ := akin_reserve words more t
  refine ⟨⟨hglyphs, hkind⟩, ?_⟩
  change List.Forall₂ Akin (t.children.map _) (t.children.map _)
  rw [List.forall₂_map_left_iff, List.forall₂_map_right_iff, List.forall₂_same]
  intro c _
  exact akin_reserve words more c

theorem reservedFrom_reserveAll (words : List String) {t : Token} (h : t.Bare) :
    (t.reserveAll words).ReservedFrom words (t.reserveAll []) ∧
      List.Forall₂ (ReservedFrom words) (t.reserveAll words).children (t.reserveAll []).children := by
  constructor
  · change (t.reserve words).ReservedFrom words (t.reserve [])
    rw [reserve_nil]
    exact reservedFrom_reserve h.1
  · change List.Forall₂ _ (t.children.map _) (t.children.map _)
    rw [List.forall₂_map_left_iff, List.forall₂_map_right_iff, List.forall₂_same]
    intro c hc
    rw [reserve_nil]
    exact reservedFrom_reserve (h.2 c hc)

theorem eq_map_reserveAll {ts bare : List Token}
    (h : List.Forall₂ (fun t b => t = b.reserveAll words ∧ b.Bare) ts bare) :
    ts = bare.map (reserveAll words) ∧ ∀ b ∈ bare, b.Bare := by
  induction h with
  | nil => exact ⟨rfl, nofun⟩
  | cons hb _ ih =>
    refine ⟨by rw [List.map_cons, hb.1, ih.1], fun c hc => ?_⟩
    rcases List.mem_cons.1 hc with rfl | hc
    · exact hb.2
    · exact ih.2 c hc

end Token

/-! ## Places in a line -/

namespace LinePlace

variable (place : LinePlace) (words : List String) (t : Token)

theorem names_reserve : place.names (t.reserve words) = place.names t := by
  have hend : ((t.reserve words).kind != .directiveEnd) = (t.kind != .directiveEnd) := by
    rw [Bool.eq_iff_iff, bne_iff_ne, bne_iff_ne, Ne, Token.kind_reserve_eq_directiveEnd]
  rw [names, names, Token.isSpace_reserve, hend]

theorem note?_reserve : place.note? (t.reserve words) = place.note? t := by
  rw [note?, note?, names_reserve, Token.value_reserve, Token.span_reserve]

theorem next_reserve : place.next (t.reserve words) = place.next t := by
  rw [next, next, Token.isSpace_reserve, Token.value_reserve]
  simp only [Token.kind_reserve_eq_directiveEnd]

/-- The name of a directive is marked whether it is reserved or not. -/
theorem mark_reserve : place.mark (t.reserve words) = (place.mark t).reserve words := by
  rw [mark, mark, names_reserve, Token.value_reserve]
  split
  · have hk : (t.withKind .directiveName).kind ≠ .identifier := by
      change TokenKind.directiveName ≠ _
      decide
    rw [Token.reserve_of_ne hk]
    unfold Token.reserve
    split <;> rfl
  · rfl

theorem kind_mark_ne_reserved {t : Token} (h : t.kind ≠ .reserved) : (place.mark t).kind ≠ .reserved := by
  unfold mark
  split
  · exact nofun
  · exact h

/-- No table has a rule for reserved words. -/
theorem kinds_ne_reserved : ∀ k ∈ place.table.gather Rule.kinds, k ≠ .reserved := by
  cases place <;> decide

end LinePlace

/-! ## Tables -/

variable {σ τ ε α β γ : Type}

/-- A token is of the kind that it is finished with, and has no children. -/
theorem Scanner.finish_returns (kind : TokenKind) :
    Returns (finish kind : ScanM (Scanner σ) Token) fun t => t.kind = kind ∧ t.children = [] := by
  intro s t s' h
  unfold finish at h
  split at h
  · next ht =>
    cases h
    unfold Draft.toToken at ht
    split at ht
    · cases ht
    · obtain ⟨-, -, rfl⟩ := Token.make_eq_ok_iff.1 ht
      exact ⟨rfl, rfl⟩
  · cases h

/-- No scanner reads a reserved word, unless its table has a rule for them. -/
theorem Scanner.readToken_bare [Alphabet] [Source σ] {table : Table}
    (h : ∀ k ∈ table.gather Rule.kinds, k ≠ .reserved) :
    Returns (readToken table : ScanM (Scanner σ) (Option Token)) fun o =>
      ∀ t ∈ o, t.kind ≠ .reserved ∧ t.children = [] := by
  refine .bind fun g => ?_
  split
  · exact .pure nofun
  · next lead _ =>
    refine .bind fun _ => (readRest_returns table lead).andThen fun k hk => ?_
    refine (finish_returns k).andThen fun t ht => .pure ?_
    rintro _ ⟨⟩
    refine ⟨?_, ht.2⟩
    rw [ht.1]
    rcases hk with hk | rfl | rfl
    · exact h k hk
    · exact nofun
    · exact nofun

/-! ## Lockstep -/

/-- Two runs of one computation from one state. -/
theorem Lockstep.same {m : EStateM ε σ α} {q : α → Prop} (h : Returns m q) :
    Lockstep Eq m m fun a b s t => a = b ∧ q b ∧ s = t := by
  rintro s _ rfl
  match hm : m s with
  | .ok a s' => exact ⟨rfl, h s a s' hm, rfl⟩
  | .error e s' => exact rfl

/-- **What two runs gather item by item**: as many items, related one by one, and the same ending. -/
theorem Lockstep.gatherUntil {μ : σ → Nat} {ν : τ → Nat} {m : EStateM ε σ (Turn α γ)}
    {n : EStateM ε τ (Turn β γ)} {hμ : Draws μ m} {hν : Draws ν n} {I : σ → τ → Prop} {R : α → β → Prop}
    (h : Lockstep I m n (Turn.Pair (fun a b s t => R a b ∧ I s t) fun c d _ _ => c = d)) {s : σ} {t : τ}
    (hs : I s t) :
    ∃ as bs ending s' t', Pretoken.gatherUntil μ m hμ s = .ok (as, ending) s' ∧
      Pretoken.gatherUntil ν n hν t = .ok (bs, ending) t' ∧ List.Forall₂ R as bs := by
  induction hn : μ s using Nat.strongRecOn generalizing s t with
  | ind k ih =>
    subst hn
    have hmn := h s t hs
    match hm : m s, hn : n t, hmn with
    | .ok (.again a) s₁, .ok (.again b) t₁, ⟨hab, hst⟩ =>
      obtain ⟨as, bs, ending, s', t', hs', ht', hall⟩ := ih _ (hμ s a s₁ hm) hst rfl
      refine ⟨a :: as, b :: bs, ending, s', t', ?_, ?_, .cons hab hall⟩
      · rw [gatherUntil_again hm]
        change EStateM.map _ _ s₁ = _
        rw [EStateM.map, hs']
      · rw [gatherUntil_again hn]
        change EStateM.map _ _ t₁ = _
        rw [EStateM.map, ht']
    | .ok (.done c) s₁, .ok (.done d) t₁, hcd =>
      obtain rfl : c = d := hcd
      exact ⟨[], [], .ok c, s₁, t₁, gatherUntil_done hm, gatherUntil_done hn, .nil⟩
    | .error e s₁, .error f t₁, hef =>
      obtain rfl : e = f := hef
      exact ⟨[], [], .error e, s₁, t₁, gatherUntil_error hm, gatherUntil_error hn, .nil⟩

variable [Source σ]

/-! ## Directives -/

namespace DirectiveLine

/-- The line `s`, with reserved words, beside the same line without: they stand at one place and have noted
the same, and the tokens differ in nothing but what is reserved. -/
structure Reserving (words : List String) (s t : Logged (DirectiveLine σ)) : Prop where
  scanner : s.state.scanner = t.state.scanner
  tokens : s.state.newestFirst = t.state.newestFirst.map (Token.reserve words)
  bare : ∀ u ∈ t.state.newestFirst, u.kind ≠ .reserved
  log : s.log = t.log

theorem readToken_reserving [Alphabet] (words : List String) (place : LinePlace) :
    Lockstep (Reserving words) (readToken words place.table : ScanM (DirectiveLine σ) _)
      (readToken [] place.table) fun o p s t => o = p.map (Token.reserve words) ∧
        (∀ u ∈ p, u.kind ≠ .reserved) ∧ Reserving words s t := by
  have hread : Lockstep Eq
      (Option.map (Token.reserve words) <$> Scanner.readToken place.table : ScanM (Scanner σ) _)
      (Option.map (Token.reserve []) <$> Scanner.readToken place.table) fun o p s t =>
        o = p.map (Token.reserve words) ∧ (∀ u ∈ p, u.kind ≠ .reserved) ∧ s = t := by
    refine ((Lockstep.same (Scanner.readToken_bare place.kinds_ne_reserved)).post ?_).map
    rintro o _ s _ ⟨rfl, hbare, rfl⟩
    have hid : o.map (Token.reserve []) = o := by
      cases o with
      | none => rfl
      | some u => rw [Option.map_some, Token.reserve_nil]
    rw [hid]
    exact ⟨rfl, fun u hu => (hbare u hu).1, rfl⟩
  refine Lockstep.onPart hread ?_ ?_
  · rintro s t ⟨hscan, -, -, hlog⟩
    rw [hscan, hlog]
  · rintro s t ⟨-, htok, hbare, -⟩ o p u _ ⟨hop, hp, rfl⟩
    exact ⟨hop, hp, rfl, htok, hbare, rfl⟩

omit [Source σ] in
theorem noteAll_reserving (words : List String) (e : Option Event) :
    Lockstep (Reserving words) (noteAll e : ScanM (DirectiveLine σ) Unit) (noteAll e) fun _ _ =>
      Reserving words := by
  cases e with
  | none => exact .pure _ _ fun _ _ hs => hs
  | some e => exact fun s t hs => ⟨hs.scanner, hs.tokens, hs.bare, congrArg (e :: ·) hs.log⟩

omit [Source σ] in
theorem push_reserving (words : List String) {u : Token} (hu : u.kind ≠ .reserved) :
    Lockstep (Reserving words) (push (u.reserve words) : ScanM (DirectiveLine σ) Unit) (push u) fun _ _ =>
      Reserving words := by
  intro s t hs
  refine ⟨hs.scanner, ?_, ?_, hs.log⟩
  · change u.reserve words :: s.state.newestFirst = _
    rw [hs.tokens]
    rfl
  · intro v hv
    rcases List.mem_cons.1 hv with rfl | hv
    · exact hu
    · exact hs.bare v hv

/-- **A turn of a line goes the same way** whatever words are reserved. -/
theorem lineTurn_reserving [Alphabet] (words : List String) (place : LinePlace) :
    Lockstep (Reserving words) (lineTurn words place : ScanM (DirectiveLine σ) _) (lineTurn [] place)
      fun x y s t => x = y ∧ Reserving words s t := by
  refine (readToken_reserving words place).bind fun o p => .of_prop ?_
  rintro rfl
  cases p with
  | none =>
    refine .of_prop fun _ => Lockstep.bind (noteAll_reserving words (some place.truncation)) fun _ _ => ?_
    exact .pure _ _ fun _ _ hs => ⟨rfl, hs⟩
  | some u =>
    refine .of_prop fun hbare => ?_
    simp only [Option.map_some]
    rw [LinePlace.note?_reserve, LinePlace.mark_reserve, LinePlace.next_reserve]
    refine (noteAll_reserving words _).bind fun _ _ => ?_
    refine (push_reserving words (place.kind_mark_ne_reserved (hbare u rfl))).bind fun _ _ => ?_
    exact .pure _ _ fun _ _ hs => ⟨rfl, hs⟩

theorem readFrom_reserving [Alphabet] (words : List String) (place : LinePlace) :
    Lockstep (Reserving words) (readFrom words place : ScanM (DirectiveLine σ) Unit) (readFrom [] place)
      fun _ _ => Reserving words := by
  refine (Lockstep.loop (I := fun p q s t => p = q ∧ Reserving words s t) (fun p q => .of_prop ?_)
    place place).pre fun s t hs => ⟨rfl, hs⟩
  rintro rfl
  refine (lineTurn_reserving words p).post ?_
  rintro x _ s t ⟨rfl, hs⟩
  cases x with
  | again next => exact ⟨rfl, hs⟩
  | done => exact hs

/-- The directive goes through these places, one token after the other. -/
def Passes [Alphabet] (words : List String) : List LinePlace → LinePlace → Logged (DirectiveLine σ) → Prop
  | [], _, _ => True
  | next :: places, place, s => ∃ s', lineTurn words place s = .ok (.again next) s' ∧
      Passes words places next s'

theorem passes_reserving [Alphabet] {words : List String} {places : List LinePlace} {place : LinePlace}
    {s t : Logged (DirectiveLine σ)} (h : Reserving words s t) :
    Passes words places place s ↔ Passes [] places place t := by
  induction places generalizing place s t with
  | nil => exact Iff.rfl
  | cons next places ih =>
    have hturn := lineTurn_reserving words place s t h
    constructor
    · rintro ⟨s', hs', hpass⟩
      rw [hs'] at hturn
      match ht : lineTurn [] place t, hturn with
      | .ok y t', ⟨hy, hst⟩ => exact ⟨t', by rw [ht, ← hy], (ih hst).1 hpass⟩
    · rintro ⟨t', ht', hpass⟩
      rw [ht'] at hturn
      match hs : lineTurn words place s, hturn with
      | .ok x s', ⟨hx, hst⟩ => exact ⟨s', by rw [hs, hx], (ih hst).2 hpass⟩

omit [Source σ] in
/-- A line of which nothing has been read is the same whatever words are reserved. -/
theorem reserving_ofScanner (words : List String) (s : Scanner σ) (log : List Event) :
    Reserving words ⟨.ofScanner s, log⟩ ⟨.ofScanner s, log⟩ :=
  ⟨rfl, rfl, nofun, rfl⟩

end DirectiveLine

variable [Alphabet]

theorem Scanner.readDirective_reserving (words : List String) :
    Lockstep Eq (readDirective words : ScanM (Scanner σ) (List Token)) (readDirective [])
      fun cs ds s t => cs = ds.map (Token.reserve words) ∧ (∀ d ∈ ds, d.kind ≠ .reserved) ∧ s = t := by
  unfold readDirective
  rw [DirectiveLine.readDirective_eq_loop, DirectiveLine.readDirective_eq_loop]
  have hline : Lockstep (DirectiveLine.Reserving words)
      (DirectiveLine.readFrom words .name >>= fun _ => ScanM.view DirectiveLine.children :
        ScanM (DirectiveLine σ) _)
      (DirectiveLine.readFrom [] .name >>= fun _ => ScanM.view DirectiveLine.children) fun cs ds s t =>
        cs = ds.map (Token.reserve words) ∧ (∀ d ∈ ds, d.kind ≠ .reserved) ∧
          DirectiveLine.Reserving words s t := by
    refine (DirectiveLine.readFrom_reserving words .name).bind fun _ _ s t hs => ⟨?_, ?_, hs⟩
    · change s.state.newestFirst.reverse = _
      rw [hs.tokens, ← List.map_reverse]
      rfl
    · exact fun d hd => hs.bare d (List.mem_reverse.1 hd)
  refine Lockstep.onPart hline ?_ ?_
  · rintro s _ rfl
    exact DirectiveLine.reserving_ofScanner words _ _
  · rintro s _ rfl cs ds u v ⟨hcs, hds, huv⟩
    refine ⟨hcs, hds, ?_⟩
    simp only [huv.scanner, huv.log]

/-! ## Lexers -/

namespace Lexer

/-- The lexer `s`, with reserved words, beside the same lexer without. -/
def Reserving (words : List String) (s t : Logged (Lexer σ)) : Prop :=
  s = ⟨{ t.state with reserved := words }, t.log⟩ ∧ t.state.reserved = []

omit [Source σ] [Alphabet] in
theorem withScanner_reserving {words : List String} {m n : ScanM (Scanner σ) α} {q : α → α → Prop}
    (h : Lockstep Eq m n fun a b s t => q a b ∧ s = t) :
    Lockstep (Reserving words) (withScanner m) (withScanner n) fun a b s t => q a b ∧ Reserving words s t := by
  refine Lockstep.onPart h ?_ ?_
  · rintro s t ⟨rfl, -⟩
    rfl
  · rintro s t ⟨rfl, hnil⟩ a b u _ ⟨hab, rfl⟩
    exact ⟨hab, rfl, hnil⟩

theorem classify_reserving (words : List String) {t : Token} (ht : t.kind ≠ .reserved)
    (hc : t.children = []) :
    Lockstep (Reserving words) (classify t : ScanM (Lexer σ) Token) (classify t) fun a b s s' =>
      (a = b.reserveAll words ∧ b.Bare) ∧ Reserving words s s' := by
  have hbare : t.Bare := ⟨ht, by rw [hc]; exact nofun⟩
  rintro s u ⟨rfl, hnil⟩
  by_cases ho : Opens t u.state
  · -- The number sign of a directive keeps its kind; the children are those of the same line.
    have hd := Scanner.readDirective_reserving (σ := σ) words ⟨.ofSource u.state.source, u.log⟩ _ rfl
    have hif : t.kind = .punctuator ∧ t.value = "#" ∧ u.state.atLineStart = true := ho
    match hw : Scanner.readDirective words ⟨.ofSource u.state.source, u.log⟩,
        hb : Scanner.readDirective [] ⟨.ofSource u.state.source, u.log⟩, hd with
    | .ok cs v, .ok ds _, ⟨hcs, hds, rfl⟩ =>
      have hl := classify_directive (l := ⟨{ u.state with reserved := words }, u.log⟩) ho hw
      have hr := classify_directive (l := u) ho (by rw [hnil]; exact hb)
      rw [hl, hr]
      refine ⟨⟨?_, nofun, hds⟩, rfl, hnil⟩
      rw [Token.reserveAll_directive, hcs]
    | .error e v, .error f v', hef =>
      unfold classify
      rw [if_neg (by rw [ho.1]; decide)]
      simp only [bind, EStateM.bind, ScanM.view, if_pos hif, withScanner, ScanM.onState, onPart, hnil, hw, hb]
      exact hef
  · rw [classify_plain ho, classify_plain (l := ⟨{ u.state with reserved := words }, u.log⟩) ho, hnil,
      Token.reserve_nil]
    exact ⟨⟨(Token.reserveAll_of_children hc).symm, hbare⟩, rfl, hnil⟩

/-- **One token**: with reserved words it is the token without them, reclassified. -/
theorem nextToken_reserving (words : List String) :
    Lockstep (Reserving words) (nextToken : ScanM (Lexer σ) (Option Token)) nextToken fun o p s t =>
      (o = p.map (Token.reserveAll words) ∧ ∀ u ∈ p, u.Bare) ∧ Reserving words s t := by
  have htext : ∀ k ∈ Table.text.gather Rule.kinds, k ≠ .reserved := by
    intro k hk hr
    have := Table.kinds_text k hk
    rw [hr] at this
    cases this
  have hread := Lockstep.same (Scanner.readToken_bare (σ := σ) htext)
  have hfirst : Lockstep Eq (Scanner.readToken .text : ScanM (Scanner σ) _) (Scanner.readToken .text)
      fun o p s t => (o = p ∧ ∀ u ∈ p, u.kind ≠ .reserved ∧ u.children = []) ∧ s = t :=
    hread.post fun _ _ _ _ h => ⟨⟨h.1, h.2.1⟩, h.2.2⟩
  refine (withScanner_reserving hfirst).bind fun o p => .of_prop ?_
  rintro ⟨rfl, hbare⟩
  cases o with
  | none => exact .pure _ _ fun _ _ hs => ⟨⟨rfl, nofun⟩, hs⟩
  | some t =>
    obtain ⟨hk, hc⟩ := hbare t rfl
    refine (classify_reserving words hk hc).bind fun a b => .of_prop ?_
    rintro ⟨rfl, hb⟩
    refine .pure _ _ fun _ _ hs => ⟨⟨rfl, ?_⟩, hs⟩
    rintro _ ⟨⟩
    exact hb

/-- **All tokens**: with reserved words they are the tokens without them, reclassified. -/
theorem tokens_reserveAll (words : List String) {s t : Logged (Lexer σ)} (h : Reserving words s t) :
    ∃ ts ending s' t', tokens s = .ok (ts.map (Token.reserveAll words), ending) s' ∧
      tokens t = .ok (ts, ending) t' ∧ ∀ u ∈ ts, u.Bare := by
  have hturn : Lockstep (Reserving words) (Turn.ofOption <$> nextToken : ScanM (Lexer σ) _)
      (Turn.ofOption <$> nextToken) (Turn.Pair (fun a b s t =>
        (a = b.reserveAll words ∧ b.Bare) ∧ Reserving words s t) fun c d _ _ => c = d) := by
    refine ((nextToken_reserving words).post ?_).map
    rintro _ p s t ⟨⟨rfl, hbare⟩, hs⟩
    cases p with
    | none => rfl
    | some u => exact ⟨⟨rfl, hbare u rfl⟩, hs⟩
  obtain ⟨as, bs, ending, s', t', hs', ht', hall⟩ := Lockstep.gatherUntil hturn h
  obtain ⟨rfl, hbare⟩ := Token.eq_map_reserveAll hall
  exact ⟨bs, ending, s', t', hs', ht', hbare⟩

/-- The tokens of a file with some reserved words are those without, reclassified. -/
theorem run_tokens_reserveAll (feed : Feed) (name : Option String) (trigraphs : Bool) :
    ∃ (bare : List Token) (ending : Except Fault Unit), (∀ u ∈ bare, u.Bare) ∧ ∀ words,
      (tokens.run (ofFile (.ofFeed feed name) trigraphs words)).1 =
        .ok (bare.map (Token.reserveAll words), ending) := by
  have hrun (words : List String) :=
    tokens_reserveAll words (s := ⟨ofFile (.ofFeed feed name) trigraphs words, []⟩)
      (t := ⟨ofFile (.ofFeed feed name) trigraphs [], []⟩) ⟨rfl, rfl⟩
  obtain ⟨bare, ending, s', t', hs', ht', hbare⟩ := hrun []
  refine ⟨bare, ending, hbare, fun words => ?_⟩
  obtain ⟨ts, ending', u, t'', hu, ht'', -⟩ := hrun words
  rw [ht'] at ht''
  cases ht''
  rw [ScanM.run, hu]

/-- **Reserved words affect nothing but their own classification.** Whatever is read, and whatever words two
lexers and one without reserved words have: all three read equally many tokens and end the same way. Tokens
of the two in the same place, and their children, are akin; a token or a child is a reserved word if and only
if it is an identifier without reserved words and its text is one of the words. A directive goes through the
same places, and so is read with the same tables, whatever the words. -/
theorem tokens_reserving (feed : Feed) (name : Option String) (trigraphs : Bool) (words more : List String) :
    (∃ (ts us bare : List Token) (ending : Except Fault Unit),
      (tokens.run (ofFile (.ofFeed feed name) trigraphs words)).1 = .ok (ts, ending) ∧
      (tokens.run (ofFile (.ofFeed feed name) trigraphs more)).1 = .ok (us, ending) ∧
      (tokens.run (ofFile (.ofFeed feed name) trigraphs [])).1 = .ok (bare, ending) ∧
      List.Forall₂ (fun t u => t.Akin u ∧ List.Forall₂ Token.Akin t.children u.children) ts us ∧
      List.Forall₂ (fun t b => Token.ReservedFrom words t b ∧
        List.Forall₂ (Token.ReservedFrom words) t.children b.children) ts bare) ∧
    ∀ (places : List LinePlace) (s : Scanner Phases) (log : List Event),
      DirectiveLine.Passes words places .name ⟨.ofScanner s, log⟩ ↔
        DirectiveLine.Passes more places .name ⟨.ofScanner s, log⟩ := by
  constructor
  · obtain ⟨bare, ending, hbare, hrun⟩ := run_tokens_reserveAll feed name trigraphs
    refine ⟨_, _, _, ending, hrun words, hrun more, hrun [], ?_, ?_⟩
    · rw [List.forall₂_map_left_iff, List.forall₂_map_right_iff, List.forall₂_same]
      intro t _
      exact Token.akin_reserveAll words more t
    · rw [List.forall₂_map_left_iff, List.forall₂_map_right_iff, List.forall₂_same]
      intro t ht
      exact Token.reservedFrom_reserveAll words (hbare t ht)
  · intro places s log
    have hbare (words : List String) : DirectiveLine.Passes words places .name ⟨.ofScanner s, log⟩ ↔
        DirectiveLine.Passes [] places .name ⟨.ofScanner s, log⟩ :=
      DirectiveLine.passes_reserving (DirectiveLine.reserving_ofScanner words s log)
    rw [hbare words, hbare more]

end Lexer

end Pretoken
