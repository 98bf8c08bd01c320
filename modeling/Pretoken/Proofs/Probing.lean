import Pretoken.Proofs.Retaking

/-!
# Asking whether the end has come

A lexer can be asked for the next token, whether the end has come, and where it stands, in any order and also
after failures. Asking for the end looks at the next glyph and gives it back; whatever is asked later, the
answers are the same as if it had not been asked.

* `Request`, `Reply`, `Lexer.answers`: calls of a lexer, and what they return.
* `Lexer.Alike`: lexers between which no later call can tell.
* `Lexer.Alike.nextToken`: they give the same next token.
* **`Lexer.probed`**: asking for the end leaves a lexer like the one that was asked.
* `Lexer.Answered`, `Lexer.answered_of_answer`: what a call can return, and what it leaves.
* `Lexer.answers_filter`: a run of calls, with probes and without.
* **`Lexer.probe_transparent`**: no token depends on whether the end was asked for.
-/

namespace Pretoken

/-- A call of a lexer. -/
inductive Request where
  /-- For the next token. -/
  | next
  /-- For the end. -/
  | probe
  /-- For the location. -/
  | place
deriving DecidableEq, Repr

/-- What a call of a lexer returns. -/
inductive Reply where
  /-- The next token, or none at the end, or a failure. -/
  | token (result : Except Fault (Option Token))
  /-- The end, or none if it has not come, or a failure. -/
  | ending (result : Except Fault (Option Glyph))
  /-- The location. -/
  | place (location : Location)

/-- What was returned for the next token. -/
def Reply.token? : Reply → Option (Except Fault (Option Token))
  | token result => some result
  | ending _ | place _ => none

/-- The failure that a call reports. -/
def Reply.fault? : Reply → Option Fault
  | token (.error e) | ending (.error e) => some e
  | token (.ok _) | ending (.ok _) | place _ => none

variable {σ : Type} [Source σ]

/-! ## Scanners -/

namespace Scanner

variable {s : Logged (Scanner σ)} {u : Logged σ} {g : Glyph} {table : Table}

theorem next_of_take (h : Source.take ⟨s.state.source, s.log⟩ = .ok g u) :
    next s = .ok g ⟨⟨u.state, s.state.draft⟩, u.log⟩ := by
  rw [next, onSource, ScanM.onState, onPart, h]

variable [Alphabet]

theorem readToken_of_end (h : Source.take ⟨s.state.source, s.log⟩ = .ok g u) (hg : g.isEof = true) :
    readToken table s = .ok none ⟨⟨u.state, s.state.draft⟩, u.log⟩ := by
  rw [readToken, bind_of_ok (next_of_take h), Glyph.value?_eq_none_iff.2 hg]
  rfl

theorem readToken_of_failed {e : Fault} (h : Source.take ⟨s.state.source, s.log⟩ = .error e u) :
    readToken table s = .error e ⟨⟨u.state, s.state.draft⟩, u.log⟩ := by
  refine bind_of_error ?_
  rw [next, onSource, ScanM.onState, onPart, h]

/-- If there is a character, there is a token, or a failure. -/
theorem readToken_ne_none (h : Source.take ⟨s.state.source, s.log⟩ = .ok g u) (hg : g.isEof = false)
    {s' : Logged (Scanner σ)} : readToken table s ≠ .ok none s' := by
  intro hn
  obtain ⟨c, hc⟩ := Glyph.exists_value_of_isEof hg
  rw [readToken, bind_of_ok (next_of_take h), hc] at hn
  have hsome : Returns (do keep g; let kind ← readRest table c; return some (← finish kind) :
      ScanM (Scanner σ) (Option Token)) (· ≠ none) :=
    .bind fun _ => .bind fun _ => .bind fun _ => .pure (Option.some_ne_none _)
  exact hsome _ _ _ hn rfl

/-- A token depends on the source only through the next glyph and what it leaves. -/
theorem readToken_congr {s' : Logged (Scanner σ)} (hd : s.state.draft = s'.state.draft)
    (h : Source.take ⟨s.state.source, s.log⟩ = Source.take ⟨s'.state.source, s'.log⟩) :
    readToken table s = readToken table s' := by
  have hnext : next s = next s' := by
    rw [next, onSource, ScanM.onState, onPart, onPart, h, hd]
  change EStateM.bind _ _ s = EStateM.bind _ _ s'
  rw [EStateM.bind, hnext]
  rfl

end Scanner

namespace Lexer

/-! ## Lexers that cannot be told apart -/

/-- The two lexers differ in nothing but where glyphs are kept that come next. -/
structure Alike (l l' : Logged (Lexer σ)) : Prop where
  reserved : l.state.reserved = l'.state.reserved
  atLineStart : l.state.atLineStart = l'.state.atLineStart
  take : Source.take (⟨l.state.source, l.log⟩ : Logged σ) = Source.take ⟨l'.state.source, l'.log⟩

namespace Alike

variable {l l' l'' : Logged (Lexer σ)}

theorem refl (l : Logged (Lexer σ)) : Alike l l := ⟨rfl, rfl, rfl⟩

theorem trans (h : Alike l l') (h' : Alike l' l'') : Alike l l'' :=
  ⟨h.reserved.trans h'.reserved, h.atLineStart.trans h'.atLineStart, h.take.trans h'.take⟩

/-- What is put in the place of the source makes the lexers equal. -/
theorem put (h : Alike l l') (t : σ) : { l.state with source := t } = { l'.state with source := t } := by
  rw [Lexer.mk.injEq]
  exact ⟨rfl, h.reserved, h.atLineStart⟩

/-- **Lexers that are alike give the same token**, and are the same afterwards. -/
theorem nextToken [Alphabet] (h : Alike l l') : nextToken l = nextToken l' := by
  have hread : Scanner.readToken .text ⟨.ofSource l.state.source, l.log⟩ =
      Scanner.readToken .text ⟨.ofSource l'.state.source, l'.log⟩ := Scanner.readToken_congr rfl h.take
  have hscan : withScanner (Scanner.readToken .text) l = withScanner (Scanner.readToken .text) l' := by
    rw [withScanner, ScanM.onState, onPart, onPart, hread]
    simp only [h.put]
  change EStateM.bind _ _ l = EStateM.bind _ _ l'
  rw [EStateM.bind, hscan]
  rfl

end Alike

/-! ## Probes -/

section Take

variable {l : Logged (Lexer σ)} {u : Logged σ} {g : Glyph} {e : Fault}

theorem eof?_of_char {v : Logged σ} (h : Source.take ⟨l.state.source, l.log⟩ = .ok g u) (hg : g.isEof = false)
    (hv : Source.giveBack g u = .ok () v) :
    eof? l = .ok none ⟨{ l.state with source := v.state }, v.log⟩ := by
  simp only [eof?, onSource, ScanM.onState, onPart, bind_of_ok h, hg, Bool.false_eq_true, if_false, bind_of_ok hv]
  rfl

theorem eof?_of_end (h : Source.take ⟨l.state.source, l.log⟩ = .ok g u) (hg : g.isEof = true) :
    eof? l = .ok (some g) ⟨{ l.state with source := u.state }, u.log⟩ := by
  simp only [eof?, onSource, ScanM.onState, onPart, bind_of_ok h, hg, if_true]
  rfl

theorem eof?_of_failed (h : Source.take ⟨l.state.source, l.log⟩ = .error e u) :
    eof? l = .error e ⟨{ l.state with source := u.state }, u.log⟩ := by
  simp only [eof?, onSource, ScanM.onState, onPart, bind_of_error h]

variable [Alphabet]

theorem nextToken_of_end (h : Source.take ⟨l.state.source, l.log⟩ = .ok g u) (hg : g.isEof = true) :
    nextToken l = .ok none ⟨{ l.state with source := u.state }, u.log⟩ :=
  nextToken_none (Scanner.readToken_of_end h hg)

theorem nextToken_of_failed (h : Source.take ⟨l.state.source, l.log⟩ = .error e u) :
    nextToken l = .error e ⟨{ l.state with source := u.state }, u.log⟩ := by
  have hread : Scanner.readToken .text ⟨.ofSource l.state.source, l.log⟩ =
      .error e ⟨⟨u.state, .empty⟩, u.log⟩ := Scanner.readToken_of_failed h
  refine bind_of_error ?_
  rw [withScanner, ScanM.onState, onPart, hread]

theorem nextToken_ne_none (h : Source.take ⟨l.state.source, l.log⟩ = .ok g u) (hg : g.isEof = false)
    {l' : Logged (Lexer σ)} : nextToken l ≠ .ok none l' := by
  intro hn
  cases hr : Scanner.readToken .text ⟨.ofSource l.state.source, l.log⟩ with
  | ok o s =>
    cases o with
    | none => exact Scanner.readToken_ne_none h hg hr
    | some t =>
      rw [nextToken, bind_of_ok (withScanner_ok hr)] at hn
      have hsome : Returns (do return some (← classify t) : ScanM (Lexer σ) (Option Token)) (· ≠ none) :=
        .bind fun _ => .pure (Option.some_ne_none _)
      exact hsome _ _ _ hn rfl
  | error e s =>
    have hscan : withScanner (Scanner.readToken .text) l =
        .error e ⟨{ l.state with source := s.state.source }, s.log⟩ := by
      rw [withScanner, ScanM.onState, onPart, hr]
    rw [nextToken, bind_of_error hscan] at hn
    cases hn

end Take

section

variable [Alphabet]

/-- What can come of asking for the end. In each case the lexer is left like it was. -/
inductive Probed (l : Logged (Lexer σ)) : Prop
  /-- There is a character: the lexer stands where it stood, and the next call gives a token or fails. -/
  | char {l' : Logged (Lexer σ)} (run : eof? l = .ok none l') (like : Alike l' l)
    (place : location l'.state = location l.state) (token : ∀ l'', nextToken l' ≠ .ok none l'')
  /-- The end has come: the next call gives no token. -/
  | ended {e : Glyph} {l' l'' : Logged (Lexer σ)} (run : eof? l = .ok (some e) l') (like : Alike l' l)
    (token : nextToken l' = .ok none l'')
  /-- A failure: the next call fails in the same way. -/
  | failed {e : Fault} {l' l'' : Logged (Lexer σ)} (run : eof? l = .error e l') (like : Alike l' l)
    (token : nextToken l' = .error e l'')

/-- **Asking for the end leaves a lexer like it was.** -/
theorem probed {U : Upkeep σ} (S : U.Steady) {l : Logged (Lexer σ)} (h : U.Fine l.state.source) :
    Probed l := by
  cases S.take (s := ⟨l.state.source, l.log⟩) h with
  | @char g u run good fine start again =>
    have hg : g.isEof = false := (U.closed.placed good).isEof
    obtain ⟨v, hv₁, hv₂⟩ := again g good rfl
    refine .char (eof?_of_char run hg hv₁) ⟨rfl, rfl, hv₂.trans run.symm⟩ ?_ fun l'' => nextToken_ne_none hv₂ hg
    exact Option.some.inj ((S.back good hv₁).symm.trans start)
  | ended run good eof fine again =>
    exact .ended (eof?_of_end run eof) ⟨rfl, rfl, again.trans run.symm⟩ (nextToken_of_end again eof)
  | failed run left again =>
    exact .failed (eof?_of_failed run) ⟨rfl, rfl, again.trans run.symm⟩ (nextToken_of_failed again)

/-! ## Calls -/

/-- Carry out a call. A failure is a reply like any other: the lexer can be called again. -/
def answer : Request → ScanM (Lexer σ) Reply
  | .next => Reply.token <$> attempt nextToken
  | .probe => Reply.ending <$> attempt eof?
  | .place => Reply.place <$> ScanM.view location

/-- Carry out one call after the other. -/
def answers : List Request → ScanM (Lexer σ) (List Reply)
  | [] => pure []
  | request :: requests => do
    let reply ← answer request
    let replies ← answers requests
    return reply :: replies

theorem answer_next (l : Logged (Lexer σ)) :
    answer .next l = match nextToken l with
      | .ok o l' => .ok (.token (.ok o)) l'
      | .error e l' => .ok (.token (.error e)) l' := by
  change EStateM.map _ (attempt nextToken) l = _
  rw [EStateM.map, attempt]
  cases nextToken l <;> rfl

theorem answer_probe (l : Logged (Lexer σ)) :
    answer .probe l = match eof? l with
      | .ok o l' => .ok (.ending (.ok o)) l'
      | .error e l' => .ok (.ending (.error e)) l' := by
  change EStateM.map _ (attempt eof?) l = _
  rw [EStateM.map, attempt]
  cases eof? l <;> rfl

/-- Every call is answered. -/
theorem exists_answer (request : Request) (l : Logged (Lexer σ)) :
    ∃ reply l', answer request l = .ok reply l' := by
  cases request with
  | next =>
    rw [answer_next]
    cases nextToken l <;> exact ⟨_, _, rfl⟩
  | probe =>
    rw [answer_probe]
    cases eof? l <;> exact ⟨_, _, rfl⟩
  | place => exact ⟨_, _, rfl⟩

theorem answers_cons {request : Request} {requests : List Request} {reply : Reply} {replies : List Reply}
    {l l' l'' : Logged (Lexer σ)} (h : answer request l = .ok reply l')
    (h' : answers requests l' = .ok replies l'') :
    answers (request :: requests) l = .ok (reply :: replies) l'' := by
  rw [answers, bind_of_ok h, bind_of_ok h']
  rfl

/-- What a call can return, and what it leaves. -/
inductive Answered (l : Logged (Lexer σ)) : Reply → Logged (Lexer σ) → Prop
  | token {o : Option Token} {l' : Logged (Lexer σ)} (run : nextToken l = .ok o l') : Answered l (.token (.ok o)) l'
  | noToken {e : Fault} {l' : Logged (Lexer σ)} (run : nextToken l = .error e l') :
    Answered l (.token (.error e)) l'
  | ending {o : Option Glyph} {l' : Logged (Lexer σ)} (run : eof? l = .ok o l') : Answered l (.ending (.ok o)) l'
  | noEnding {e : Fault} {l' : Logged (Lexer σ)} (run : eof? l = .error e l') : Answered l (.ending (.error e)) l'
  | place (location : Location) : Answered l (.place location) l

theorem answered_of_answer {request : Request} {reply : Reply} {l l' : Logged (Lexer σ)}
    (h : answer request l = .ok reply l') : Answered l reply l' := by
  cases request with
  | next =>
    rw [answer_next] at h
    match hn : nextToken l with
    | .ok o m =>
      rw [hn] at h
      cases h
      exact .token hn
    | .error e m =>
      rw [hn] at h
      cases h
      exact .noToken hn
  | probe =>
    rw [answer_probe] at h
    match hn : eof? l with
    | .ok o m =>
      rw [hn] at h
      cases h
      exact .ending hn
    | .error e m =>
      rw [hn] at h
      cases h
      exact .noEnding hn
  | place =>
    cases h
    exact .place _

/-- **A call that reports a failure leaves what the failure leaves.** -/
theorem failed_of_answer {U : Upkeep σ} {request : Request} {reply : Reply} {l l' : Logged (Lexer σ)}
    (h : U.Fine l.state.source) (ha : answer request l = .ok reply l') {e : Fault} (he : reply.fault? = some e) :
    U.Failed e l'.state.source := by
  cases answered_of_answer ha with
  | noToken run =>
    cases he
    exact U.nextToken.error h run
  | noEnding run =>
    cases he
    exact U.eof?.error h run
  | token | ending | place => cases he

/-- **A call that gives a token** gives one that is made of good glyphs. -/
theorem whole_of_answer {U : Upkeep σ} {request : Request} {t : Token} {l l' : Logged (Lexer σ)}
    (h : U.Fine l.state.source) (ha : answer request l = .ok (.token (.ok (some t))) l') : U.Whole t := by
  cases answered_of_answer ha with
  | token run => exact (U.nextToken.ok h run).1 t rfl

section Calls

variable {U : Upkeep σ} (S : U.Steady) (hU : ∀ {e s}, U.Failed e s → U.Fine s)
include hU

/-- Whatever is asked, and whatever comes of it, what the source keeps up is kept up. -/
theorem fine_of_answer {request : Request} {reply : Reply} {l l' : Logged (Lexer σ)}
    (h : U.Fine l.state.source) (ha : answer request l = .ok reply l') : U.Fine l'.state.source := by
  cases answered_of_answer ha with
  | token run => exact (U.nextToken.ok h run).2
  | noToken run => exact hU (U.nextToken.error h run)
  | ending run => exact (U.eof?.ok h run).2
  | noEnding run => exact hU (U.eof?.error h run)
  | place => exact h

theorem exists_answers (requests : List Request) {l : Logged (Lexer σ)} (h : U.Fine l.state.source) :
    ∃ replies l', answers requests l = .ok replies l' ∧ U.Fine l'.state.source := by
  induction requests generalizing l with
  | nil => exact ⟨[], l, rfl, h⟩
  | cons request requests ih =>
    obtain ⟨reply, l₁, h₁⟩ := exists_answer request l
    obtain ⟨replies, l', h', hf⟩ := ih (fine_of_answer hU h h₁)
    exact ⟨reply :: replies, l', answers_cons h₁ h', hf⟩

/-- What holds of the reply to each call holds of all replies. -/
theorem forall_answers {R : Reply → Prop} (hR : ∀ {request reply l l'}, U.Fine l.state.source →
      answer request l = .ok reply l' → R reply) (requests : List Request) {l : Logged (Lexer σ)}
    (h : U.Fine l.state.source) : ∃ replies l', answers requests l = .ok replies l' ∧ ∀ r ∈ replies, R r := by
  induction requests generalizing l with
  | nil => exact ⟨[], l, rfl, nofun⟩
  | cons request requests ih =>
    obtain ⟨reply, l₁, h₁⟩ := exists_answer request l
    obtain ⟨replies, l', h', hall⟩ := ih (fine_of_answer hU h h₁)
    refine ⟨reply :: replies, l', answers_cons h₁ h', fun r hr => ?_⟩
    rcases List.mem_cons.1 hr with rfl | hr
    · exact hR h h₁
    · exact hall r hr

include S

/-- **Calls with probes and without.** The lexers are alike at all times, so the tokens are the same. -/
theorem answers_filter (requests : List Request) {l l' : Logged (Lexer σ)} (h : U.Fine l.state.source)
    (hl : Alike l l') :
    ∃ replies replies' m m', answers requests l = .ok replies m ∧
      answers (requests.filter (· ≠ .probe)) l' = .ok replies' m' ∧
      replies.filterMap Reply.token? = replies'.filterMap Reply.token? := by
  induction requests generalizing l l' with
  | nil => exact ⟨[], [], l, l', rfl, rfl, rfl⟩
  | cons request requests ih =>
    obtain ⟨reply, l₁, h₁⟩ := exists_answer request l
    have hf := fine_of_answer hU h h₁
    cases request with
    | next =>
      have h₁' : answer .next l' = .ok reply l₁ := by
        rw [answer_next, ← hl.nextToken, ← answer_next, h₁]
      obtain ⟨replies, replies', m, m', hm, hm', heq⟩ := ih hf (.refl l₁)
      refine ⟨_, _, m, m', answers_cons h₁ hm, answers_cons h₁' hm', ?_⟩
      rw [List.filterMap_cons, List.filterMap_cons, heq]
    | place =>
      cases h₁
      obtain ⟨replies, replies', m, m', hm, hm', heq⟩ := ih h hl
      exact ⟨_, _, m, m', answers_cons rfl hm, answers_cons rfl hm', heq⟩
    | probe =>
      -- the probe is not among the other calls, and leaves the lexer like it was
      rw [answer_probe] at h₁
      obtain ⟨hreply, hlike⟩ : reply.token? = none ∧ Alike l₁ l := by
        cases probed S h with
        | char run like => rw [run] at h₁; cases h₁; exact ⟨rfl, like⟩
        | ended run like => rw [run] at h₁; cases h₁; exact ⟨rfl, like⟩
        | failed run like => rw [run] at h₁; cases h₁; exact ⟨rfl, like⟩
      obtain ⟨replies, replies', m, m', hm, hm', heq⟩ := ih hf (hlike.trans hl)
      refine ⟨_, _, m, m', answers_cons ((answer_probe l).trans h₁) hm, hm', ?_⟩
      rw [List.filterMap_cons, hreply, heq]

omit hU in
/-- Asking for the end and then for a token: the end has come if and only if there is none. -/
theorem answers_probe_next {l : Logged (Lexer σ)} (h : U.Fine l.state.source) :
    ∃ ending token l', answers [.probe, .next] l = .ok [.ending ending, .token token] l' ∧
      ((∃ e, ending = .ok (some e)) ↔ token = .ok none) := by
  have hboth {ending : Except Fault (Option Glyph)} {token : Except Fault (Option Token)}
      {l₁ l₂ : Logged (Lexer σ)} (h₁ : answer .probe l = .ok (.ending ending) l₁)
      (h₂ : answer .next l₁ = .ok (.token token) l₂) :
      answers [.probe, .next] l = .ok [.ending ending, .token token] l₂ :=
    answers_cons h₁ (answers_cons h₂ rfl)
  cases probed S h with
  | @char l₁ run _ _ token =>
    have h₁ : answer .probe l = .ok (.ending (.ok none)) l₁ := by rw [answer_probe, run]
    match hn : nextToken l₁ with
    | .ok none l₂ => exact absurd hn (token l₂)
    | .ok (some t) l₂ => exact ⟨_, _, l₂, hboth h₁ (by rw [answer_next, hn]), by simp⟩
    | .error e l₂ => exact ⟨_, _, l₂, hboth h₁ (by rw [answer_next, hn]), by simp⟩
  | @ended e l₁ l₂ run _ token =>
    exact ⟨_, _, l₂, hboth (by rw [answer_probe, run]) (by rw [answer_next, token]), by simp⟩
  | @failed e l₁ l₂ run _ token =>
    exact ⟨_, _, l₂, hboth (by rw [answer_probe, run]) (by rw [answer_next, token]), by simp⟩

omit hU in
/-- Asking for the end where it has not come does not move the lexer. -/
theorem answers_place_probe_place {l : Logged (Lexer σ)} (h : U.Fine l.state.source) :
    ∃ before ending after l',
      answers [.place, .probe, .place] l = .ok [.place before, .ending ending, .place after] l' ∧
      (ending = .ok none → after = before) := by
  have hall {ending : Except Fault (Option Glyph)} {l₁ : Logged (Lexer σ)}
      (h₁ : answer .probe l = .ok (.ending ending) l₁) : answers [.place, .probe, .place] l =
        .ok [.place (location l.state), .ending ending, .place (location l₁.state)] l₁ :=
    answers_cons rfl (answers_cons h₁ (answers_cons rfl rfl))
  cases probed S h with
  | char run _ place => exact ⟨_, _, _, _, hall (by rw [answer_probe, run]), fun _ => place⟩
  | @ended e l₁ _ run =>
    have h₁ : answer .probe l = .ok (.ending (.ok (some e))) l₁ := by rw [answer_probe, run]
    exact ⟨_, _, _, _, hall h₁, by simp⟩
  | @failed e l₁ _ run =>
    have h₁ : answer .probe l = .ok (.ending (.error e)) l₁ := by rw [answer_probe, run]
    exact ⟨_, _, _, _, hall h₁, by simp⟩

end Calls

/-! ## Files -/

/-- **Asking for the end is transparent.** Whatever bytes arrive, text or not: calls that differ only in how
often and where the end is asked for return the same tokens, ends of tokens and failures. And after any calls, a
question for the end that is denied leaves the location as it was, and the end has come if and only if a call
right after the question returns no token. -/
theorem probe_transparent {feed : Feed} (h : feed.Flows) (name : Option String) (trigraphs : Bool)
    (reserved : List String) :
    (∀ requests requests' : List Request,
      requests.filter (· ≠ .probe) = requests'.filter (· ≠ .probe) →
      ∃ replies replies' : List Reply,
        ((answers requests).run (ofFile (.ofFeed feed name) trigraphs reserved)).1 = .ok replies ∧
        ((answers requests').run (ofFile (.ofFeed feed name) trigraphs reserved)).1 = .ok replies' ∧
        replies.filterMap Reply.token? = replies'.filterMap Reply.token?) ∧
    ∀ (requests : List Request) (l : Lexer Phases),
      ((answers requests).run (ofFile (.ofFeed feed name) trigraphs reserved)).2.1 = l →
      (∃ before ending after, ((answers [.place, .probe, .place]).run l).1 =
          .ok [.place before, .ending ending, .place after] ∧ (ending = .ok none → after = before)) ∧
      ∃ ending token, ((answers [.probe, .next]).run l).1 = .ok [.ending ending, .token token] ∧
        ((∃ e, ending = .ok (some e)) ↔ token = .ok none) := by
  have S := Phases.steady Glyph.closed_placed
  have hfail {e : Fault} {s : Phases}
      (hs : (Phases.upkeep Glyph.closed_placed LineReader.lasts_flows).Failed e s) :
      (Phases.upkeep Glyph.closed_placed LineReader.lasts_flows).Fine s := hs
  have hstart := Phases.fine_ofFile Glyph.closed_placed LineReader.lasts_flows h name trigraphs
  constructor
  · intro requests requests' hfilter
    obtain ⟨replies, bare, m, m', hm, hm', heq⟩ := answers_filter S hfail requests
      (l := ⟨ofFile (.ofFeed feed name) trigraphs reserved, []⟩) hstart (.refl _)
    obtain ⟨replies', bare', n, n', hn, hn', heq'⟩ := answers_filter S hfail requests'
      (l := ⟨ofFile (.ofFeed feed name) trigraphs reserved, []⟩) hstart (.refl _)
    rw [← hfilter, hm'] at hn'
    cases hn'
    exact ⟨replies, replies', by rw [ScanM.run_of_ok hm], by rw [ScanM.run_of_ok hn], heq.trans heq'.symm⟩
  · rintro requests l rfl
    obtain ⟨replies, l', hl', hf⟩ := exists_answers hfail requests
      (l := ⟨ofFile (.ofFeed feed name) trigraphs reserved, []⟩) hstart
    rw [ScanM.run_of_ok hl']
    constructor
    · obtain ⟨before, ending, after, m, hm, hplace⟩ := answers_place_probe_place S (l := ⟨l'.state, []⟩) hf
      exact ⟨before, ending, after, by rw [ScanM.run_of_ok hm], hplace⟩
    · obtain ⟨ending, token, m, hm, hiff⟩ := answers_probe_next S (l := ⟨l'.state, []⟩) hf
      exact ⟨ending, token, by rw [ScanM.run_of_ok hm], hiff⟩

end

/-- Probes before, between and after the tokens of a text with a splice made of a trigraph, which ends in a byte
that is no text. -/
theorem probe_transparent_splice :
    Feed.Flows [.bytes [97, 63, 63, 47], .bytes [10, 0xFF]] ∧
    ∃ replies replies' : List Reply,
      ((answers [.next, .next, .place, .next]).run
        (ofFile (.ofFeed [.bytes [97, 63, 63, 47], .bytes [10, 0xFF]] none) true [])).1 = .ok replies ∧
      ((answers [.probe, .next, .probe, .probe, .next, .probe, .place, .next, .probe]).run
        (ofFile (.ofFeed [.bytes [97, 63, 63, 47], .bytes [10, 0xFF]] none) true [])).1 = .ok replies' ∧
      replies.filterMap Reply.token? = replies'.filterMap Reply.token? := by
  have h : Feed.Flows [.bytes [97, 63, 63, 47], .bytes [10, 0xFF]] := by decide
  exact ⟨h, (probe_transparent h none true []).1 _ _ rfl⟩

end Lexer

end Pretoken
