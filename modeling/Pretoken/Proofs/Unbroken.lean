import Pretoken.Proofs.Contracts
import Pretoken.Proofs.Extent
import Pretoken.Proofs.Lexemes

/-!
# Tokens within a line

A line feed is a token, or it is part of a comment. This is so for every source, whatever it gives, and whatever
becomes of what is given back to it: what comes into a draft is what was looked at.

* `Scanner.Unbroken`: there is no line feed in the draft.
* `Scanner.Spares`: what brings none into the draft.
* `Routine.run_spares`: every routine does so, except within a comment.
* `Scanner.readToken_spares`: so does a token, unless it begins with a line feed.
* `Token.Returned`: the tokens that lexers return.
* **`Token.Returned.newline_notMem`**: unless such a token is white space or a comment, there is no line feed in it.
-/

namespace Pretoken

open ScanM (Fares)

variable {σ α : Type} [Source σ]

namespace Scanner

/-! ## Moves -/

/-- There is no line feed in the draft. -/
def Unbroken (s : Scanner σ) : Prop := ∀ g ∈ s.draft.newestFirst, g.value? ≠ some '\n'

/-- What brings no line feed into the draft, if it does not fail. -/
abbrev Spares (m : ScanM (Scanner σ) α) : Prop := Fares Unbroken m (fun _ => Unbroken) fun _ _ => True

omit [Source σ] in
theorem spares_pure (a : α) : Spares (pure a : ScanM (Scanner σ) α) := .pure a fun _ hs => hs

variable {g : Glyph} {p : Char → Bool}

/-- Of what is only done nothing is known. -/
theorem fares_any {τ : Type} {P : τ → Prop} (m : ScanM τ α) : Fares P m (fun _ _ => True) fun _ _ => True :=
  fun s _ => by
    match m s with
    | .ok _ _ | .error _ _ => exact trivial

omit [Source σ] in
theorem spares_onSource (m : ScanM σ α) : Spares (onSource m) :=
  (fares_any (P := fun _ => True) m).onState (fun _ _ => trivial) (fun _ _ _ hs _ => hs) fun _ _ _ _ _ => trivial

theorem spares_next : Spares (next : ScanM (Scanner σ) Glyph) := spares_onSource _

theorem spares_putBack (g : Glyph) : Spares (putBack g : ScanM (Scanner σ) Unit) := spares_onSource _

omit [Source σ] in
theorem spares_keep (hg : g.value? ≠ some '\n') : Spares (keep g : ScanM (Scanner σ) Unit) :=
  Fares.change fun _ hs => List.forall_mem_cons.2 ⟨hg, hs⟩

theorem spares_undo : Spares (undo : ScanM (Scanner σ) Unit) := by
  rintro ⟨⟨source, ⟨gs⟩⟩, log⟩ hs
  cases gs with
  | nil => exact hs
  | cons g gs => exact spares_onSource _ ⟨⟨source, ⟨gs⟩⟩, log⟩ (List.forall_mem_cons.1 hs).2

theorem spares_undoMany (n : Nat) : Spares (undoMany n : ScanM (Scanner σ) Unit) := by
  induction n with
  | zero => exact spares_pure _
  | succ n ih => exact spares_undo.bind fun _ => ih

/-- A glyph of a class without line feeds shows none. -/
theorem ne_newline_of_any (hp : p '\n' = false) (hg : g.value?.any p = true) : g.value? ≠ some '\n' := by
  intro hv
  rw [hv, Option.any_some, hp] at hg
  cases hg

theorem ne_newline_of_is {c : Char} (hc : c ≠ '\n') (hg : g.is c = true) : g.value? ≠ some '\n' := by
  rw [Glyph.is_iff.1 hg]
  exact fun he => hc (Option.some.inj he)

theorem ne_newline_of_eq {c : Char} (hv : g.value? = some c) (hc : c ≠ '\n') : g.value? ≠ some '\n' :=
  ne_newline_of_is hc (Glyph.is_iff.2 hv)

theorem spares_accept (hp : p '\n' = false) : Spares (accept p : ScanM (Scanner σ) Bool) := by
  refine spares_next.bind fun g => ?_
  split
  · next hg => exact (spares_keep (ne_newline_of_any hp hg)).bind fun _ => spares_pure _
  · exact (spares_putBack g).bind fun _ => spares_pure _

theorem spares_acceptUpTo (hp : p '\n' = false) (n : Nat) : Spares (acceptUpTo p n : ScanM (Scanner σ) Nat) := by
  induction n with
  | zero => exact spares_pure _
  | succ n ih =>
    refine (spares_accept hp).bind fun b => ?_
    split
    · exact ih.bind fun _ => spares_pure _
    · exact spares_pure _

omit [Source σ] in
theorem spares_loop {μ : Logged (Scanner σ) → Nat} {body : Unit → ScanM (Scanner σ) (Turn Unit Unit)}
    {paid : ∀ c, Draws μ (body c)} (h : Spares (body ())) : Spares (loop μ body paid ()) := by
  refine Fares.loop (I := fun _ => Unbroken) (fun _ => h.post fun t s hs => ?_) ()
  cases t <;> exact hs

theorem spares_acceptWhile (hp : p '\n' = false) : Spares (acceptWhile p : ScanM (Scanner σ) Unit) :=
  spares_loop (.map (spares_accept hp))

omit [Source σ] in
theorem spares_discard {m : ScanM (Scanner σ) α} (h : Spares m) : Spares (discard m) := .map h

/-! ## Routines -/

theorem spares_headerName (closing : Char) : Spares (headerName closing : ScanM (Scanner σ) Unit) := by
  refine spares_loop (spares_next.bind fun g => ?_)
  split
  · exact spares_pure _
  · next c hc =>
    split
    · exact (spares_putBack g).bind fun _ => spares_pure _
    · next hn =>
      refine (spares_keep (ne_newline_of_eq hc hn)).bind fun _ => ?_
      split <;> exact spares_pure _

theorem spares_escape : Spares (escape : ScanM (Scanner σ) Unit) := by
  refine spares_next.bind fun g => ?_
  split
  · exact spares_pure _
  · next c hc =>
    split
    · exact spares_putBack g
    · next hn =>
      refine (spares_keep (ne_newline_of_eq hc hn)).bind fun _ => ?_
      split_ifs
      · exact spares_discard (spares_acceptUpTo (by decide) 2)
      · exact spares_acceptWhile (by decide)
      · exact spares_discard (spares_acceptUpTo (by decide) 4)
      · exact spares_discard (spares_acceptUpTo (by decide) 8)
      · exact spares_pure _

theorem spares_literal (quote : Char) : Spares (literal quote : ScanM (Scanner σ) Unit) := by
  refine spares_loop (spares_next.bind fun g => ?_)
  split
  · exact spares_pure _
  · next c hc =>
    split
    · exact (spares_putBack g).bind fun _ => spares_pure _
    · next hn =>
      refine (spares_keep (ne_newline_of_eq hc hn)).bind fun _ => ?_
      split
      · exact spares_pure _
      · split
        · exact spares_escape.bind fun _ => spares_pure _
        · exact spares_pure _

theorem spares_universalDigits (n : Nat) : Spares (universalDigits n : ScanM (Scanner σ) Bool) := by
  refine (spares_acceptUpTo (by decide) n).bind fun k => ?_
  split
  · exact spares_pure _
  · refine (spares_onSource _).bind fun _ => (Fares.emit _).bind fun _ => ?_
    exact (spares_undoMany (k + 1)).bind fun _ => spares_pure _

theorem spares_universalTail : Spares (universalTail : ScanM (Scanner σ) Bool) := by
  refine spares_next.bind fun g => ?_
  split_ifs with hu hu'
  · exact (spares_keep (ne_newline_of_is (by decide) hu)).bind fun _ => spares_universalDigits 4
  · exact (spares_keep (ne_newline_of_is (by decide) hu')).bind fun _ => spares_universalDigits 8
  · exact (spares_putBack g).bind fun _ => spares_pure _

theorem spares_identifier [Alphabet] : Spares (Scanner.identifier : ScanM (Scanner σ) Unit) := by
  refine spares_loop (spares_next.bind fun g => ?_)
  split
  · exact spares_pure _
  · next c hc =>
    split
    · next hi =>
      refine (spares_keep (ne_newline_of_eq hc ?_)).bind fun _ => spares_pure _
      rintro rfl
      rw [Text.isIdentContinue_lineFeed] at hi
      cases hi
    · split
      · next hb =>
        refine (spares_keep (ne_newline_of_eq hc (by rw [hb]; decide))).bind fun _ =>
          spares_universalTail.bind fun b => ?_
        split
        · exact spares_pure _
        · exact spares_undo.bind fun _ => spares_pure _
      · exact (spares_putBack g).bind fun _ => spares_pure _

theorem spares_number [Alphabet] : Spares (Scanner.number : ScanM (Scanner σ) Unit) := by
  have hview : Spares (ScanM.view afterExponent : ScanM (Scanner σ) Bool) := (Fares.view _).post fun _ _ hs => hs.2
  refine spares_loop (hview.bind fun signed => spares_next.bind fun g => ?_)
  split
  · exact spares_pure _
  · next c hc =>
    split
    · next hn =>
      refine (spares_keep (ne_newline_of_eq hc ?_)).bind fun _ => spares_pure _
      rintro rfl
      simp [Text.isIdentContinue_lineFeed] at hn
    · exact (spares_putBack g).bind fun _ => spares_pure _

/-! ## Digraphs -/

/-- What a digraph stands for is no line feed. -/
theorem ne_newline_of_merge {d : Digraph} {gs : List Glyph} (h : Glyph.merge d.primary gs = .ok g) :
    g.value? ≠ some '\n' := by
  unfold Glyph.merge at h
  cases hc : Glyph.checkParts gs with
  | error v => rw [hc] at h; cases h
  | ok u =>
    rw [hc] at h
    cases h
    exact ne_newline_of_eq rfl (by cases d <;> decide)

omit [Source σ] in
theorem spares_revise {f : Draft → Except Violation Draft} (h : ∀ d d', f d = .ok d' →
    (∀ g ∈ d.newestFirst, g.value? ≠ some '\n') → ∀ g ∈ d'.newestFirst, g.value? ≠ some '\n') :
    Spares (revise f : ScanM (Scanner σ) Unit) := by
  intro s hs
  unfold revise
  match hf : f s.state.draft with
  | .ok d => exact h _ _ hf hs
  | .error v => exact trivial

omit [Source σ] in
theorem spares_collapse (d : Digraph) : Spares (revise (·.collapse d.primary) : ScanM (Scanner σ) Unit) := by
  refine spares_revise fun draft draft' h hall => ?_
  unfold Draft.collapse at h
  split at h
  · next rest hd =>
    rw [hd] at hall
    match hm : Glyph.merge d.primary _, h with
    | .ok k, h =>
      cases h
      simp only [List.forall_mem_cons] at hall ⊢
      exact ⟨ne_newline_of_merge hm, hall.2.2⟩
  · cases h

omit [Source σ] in
theorem spares_collapseTwo (d e : Digraph) :
    Spares (revise (·.collapseTwo d.primary e.primary) : ScanM (Scanner σ) Unit) := by
  refine spares_revise fun draft draft' h hall => ?_
  unfold Draft.collapseTwo at h
  split at h
  · next rest hd =>
    rw [hd] at hall
    match hm : Glyph.merge d.primary _, hm' : Glyph.merge e.primary _, h with
    | .ok k, .ok k', h =>
      cases h
      simp only [List.forall_mem_cons] at hall ⊢
      exact ⟨ne_newline_of_merge hm', ne_newline_of_merge hm, hall.2.2.2.2⟩
  · cases h

theorem spares_sharpDigraph : Spares (Scanner.sharpDigraph : ScanM (Scanner σ) Unit) := by
  refine spares_next.bind fun percent => ?_
  split
  · next hp =>
    refine spares_next.bind fun colon => ?_
    split
    · next hc =>
      refine (spares_keep (ne_newline_of_is (by decide) hp)).bind fun _ =>
        (spares_keep (ne_newline_of_is (by decide) hc)).bind fun _ => ?_
      exact spares_collapseTwo .doubleSharp .doubleSharp
    · exact (spares_putBack colon).bind fun _ => (spares_putBack percent).bind fun _ => spares_collapse .sharp
  · exact (spares_collapse .sharp).bind fun _ => spares_putBack percent

end Scanner

/-! ## Following a table -/

open Scanner

/-- What brings a line feed into the draft at most if it is a comment. -/
abbrev SparesKind (m : ScanM (Scanner σ) TokenKind) : Prop :=
  Fares Unbroken m (fun k s => k = .comment ∨ Unbroken s) fun _ _ => True

omit [Source σ] in
theorem Scanner.sparesKind_pure (k : TokenKind) : SparesKind (pure k : ScanM (Scanner σ) TokenKind) :=
  .pure k fun _ hs => .inr hs

variable [Alphabet]

/-- **No routine takes a line feed, except in a comment.** -/
theorem Routine.run_spares {r : Routine} {n : Nat} {o : Option Rule} (hr : Rule.sound n o (.routine r) = true) :
    SparesKind (r.run : ScanM (Scanner σ) TokenKind) := by
  have one {m : ScanM (Scanner σ) Unit} {k : TokenKind} (hm : Spares m) : SparesKind (do m; return k) :=
    hm.bind fun _ => sparesKind_pure k
  have comment {m : ScanM (Scanner σ) Unit} : SparesKind (do m; return .comment) :=
    (fares_any m).bind fun _ => .pure _ fun _ _ => .inl rfl
  cases r with
  | blanks => exact one (spares_acceptWhile (by decide))
  | directiveBlanks => exact one (spares_acceptWhile (by decide))
  | blockComment => exact comment
  | lineComment => exact comment
  | literal quote kind => exact one (spares_literal quote)
  | headerName closing kind => exact one (spares_headerName closing)
  | identifier => exact one spares_identifier
  | universalName digits =>
    refine (spares_universalDigits digits).bind fun b => ?_
    split
    · exact one spares_identifier
    · exact sparesKind_pure _
  | number => exact one spares_number
  | ellipsis =>
    refine (spares_accept (by decide)).bind fun b => ?_
    split
    · exact sparesKind_pure _
    · exact one spares_undo
  | digraph d => exact one (spares_collapse d)
  | sharpDigraph kind => exact one spares_sharpDigraph
  | shift c =>
    have hc : c ≠ '\n' := by simpa [Rule.sound] using hr
    have hp : ('\n' == c) = false := beq_eq_false_iff_ne.2 hc.symm
    refine (spares_discard (spares_accept (p := (· == c)) hp)).bind fun _ => ?_
    exact one (spares_discard (spares_accept (by decide)))

theorem Rule.run_spares {r : Rule} {n : Nat} {o : Option Rule} (hr : r.sound n o = true) :
    SparesKind (r.run : ScanM (Scanner σ) TokenKind) := by
  cases r with
  | fixed kind => exact sparesKind_pure kind
  | routine r => exact Routine.run_spares hr

mutual

theorem Action.run_spares : (action : Action) → (n : Nat) → (o : Option Rule) → action.sound n o = true →
    SparesKind (action.run : ScanM (Scanner σ) TokenKind)
  | .finish rule, n, o, h => by
    rw [Action.sound] at h
    exact Rule.run_spares h
  | .nested cases other, n, o, h => by
    rw [Action.sound, Bool.and_eq_true] at h
    exact spares_next.bind fun g => Case.choose_spares cases other n h.2 h.1 g

theorem Case.choose_spares : (cases : List Case) → (other : Rule) → (n : Nat) →
    Case.allSound (n + 1) other cases = true → other.sound n none = true → (g : Glyph) →
    SparesKind (Case.choose cases other g : ScanM (Scanner σ) TokenKind)
  | [], other, n, _, ho, g => by
    unfold Case.choose
    exact (spares_putBack g).bind fun _ => Rule.run_spares ho
  | ⟨chars, action⟩ :: cases, other, n, hs, ho, g => by
    simp only [Case.allSound, Bool.and_eq_true, Bool.not_eq_true'] at hs
    unfold Case.choose
    split
    · next hg =>
      exact (spares_keep (ne_newline_of_any hs.1.1 hg)).bind fun _ =>
        Action.run_spares action (n + 1) (some other) hs.1.2
    · exact Case.choose_spares cases other n hs.2 ho g

end

/-! ## Tokens -/

namespace Scanner

theorem readRest_spares {table : Table} (hs : table.sound = true) (lead : Char) :
    SparesKind (readRest table lead : ScanM (Scanner σ) TokenKind) := by
  unfold readRest
  split
  · next action ha => exact action.run_spares 1 none (Table.sound_of_lookup hs ha)
  · split
    · exact spares_identifier.bind fun _ => sparesKind_pure _
    · exact sparesKind_pure _

omit [Source σ] [Alphabet] in
/-- A token is made of the glyphs of its draft. -/
theorem finish_spares {k : TokenKind} {p : Prop} : Fares (fun s => p ∨ Unbroken s) (finish k : ScanM (Scanner σ) Token)
    (fun t _ => t.kind = k ∧ (p ∨ '\n' ∉ Glyph.spelling t.glyphs)) fun _ _ => True := by
  intro s hs
  unfold finish
  match ht : s.state.draft.toToken k with
  | .error v => exact trivial
  | .ok t =>
    unfold Draft.toToken at ht
    split at ht
    · cases ht
    · obtain ⟨-, -, rfl⟩ := Token.make_eq_ok_iff.1 ht
      refine ⟨rfl, hs.imp_right fun hs hm => ?_⟩
      obtain ⟨g, hg, hv⟩ := List.mem_filterMap.1 hm
      exact hs g (List.mem_reverse.1 hg) hv

/-- **A token other than a comment has no line feed**, unless it is one. -/
theorem readToken_spares {table : Table} {k : TokenKind} (hs : table.sound = true) (ht : table.Breaks k) :
    Fares (·.draft = .empty) (readToken table : ScanM (Scanner σ) (Option Token)) (fun o _ =>
      ∀ t ∈ o, t.kind = .comment ∨ t.kind = k ∨ '\n' ∉ Glyph.spelling t.glyphs) fun _ _ => True := by
  have hnext : Fares (·.draft = .empty) (next : ScanM (Scanner σ) Glyph) (fun _ s => s.draft = .empty)
      fun _ _ => True := by
    unfold next onSource
    refine (fares_any (P := fun _ => True) _).onState ?_ ?_ ?_
    · exact fun _ _ => trivial
    · exact fun _ _ _ hs _ => hs
    · exact fun _ _ _ _ _ => trivial
  refine hnext.bind fun g => ?_
  split
  · refine .pure _ fun _ _ => ?_
    rintro _ ⟨⟩
  · next lead hl =>
    by_cases hn : lead = '\n'
    · -- a line feed is complete, and of the kind `k`
      subst hn
      rw [readRest, ht.lineFeed]
      have hkind : Fares (fun _ => True) (pure k : ScanM (Scanner σ) TokenKind)
          (fun kind s => kind = k ∨ Unbroken s) fun _ _ => True := .pure k fun _ _ => .inl rfl
      refine (fares_any _).bind fun _ => hkind.bind fun kind => finish_spares.bind fun t => ?_
      refine .pure _ fun s ht => ?_
      rintro _ ⟨⟩
      exact .inr (ht.2.imp_left ht.1.trans)
    · have hkeep : Fares (·.draft = .empty) (keep g : ScanM (Scanner σ) Unit) (fun _ => Unbroken) fun _ _ => True := by
        refine (spares_keep (ne_newline_of_eq hl hn)).pre fun s hs => ?_
        rw [Unbroken, hs]
        exact fun _ hm => absurd hm List.not_mem_nil
      refine hkeep.bind fun _ => (readRest_spares hs lead).bind fun kind => finish_spares.bind fun t => ?_
      refine .pure _ fun s ht => ?_
      rintro _ ⟨⟩
      exact ht.2.imp ht.1.trans .inr

end Scanner

/-! ## Lexers -/

namespace Lexer

/-- What a token becomes has its glyphs, and white space stays white space. -/
theorem classify_fares (t : Token) : Fares (fun _ => True) (classify t : ScanM (Lexer σ) Token)
    (fun u _ => u.glyphs = t.glyphs ∧ (t.kind.isSpace = true → u.kind.isSpace = true)) fun _ _ => True := by
  unfold classify
  split
  · split
    · exact (fares_any _).bind fun _ => .pure _ fun _ _ => ⟨rfl, id⟩
    · exact .pure _ fun _ _ => ⟨rfl, id⟩
  · next hk =>
    refine (fares_any _).bind fun start => ?_
    split
    · exact (fares_any _).bind fun _ => (fares_any _).bind fun _ => .pure _ fun _ _ => ⟨rfl, fun h => absurd h hk⟩
    · exact (fares_any _).bind fun _ => (fares_any _).bind fun _ =>
        .pure _ fun _ _ => ⟨Token.glyphs_reserve _ _, fun h => absurd h hk⟩

/-- **A token that is neither white space nor a comment has no line feed.** -/
theorem nextToken_spares : Fares (fun _ => True) (nextToken : ScanM (Lexer σ) (Option Token)) (fun o _ =>
    ∀ t ∈ o, t.kind.isSpace = false → '\n' ∉ Glyph.spelling t.glyphs) fun _ _ => True := by
  have hread : Fares (fun _ => True) (withScanner (Scanner.readToken .text) : ScanM (Lexer σ) (Option Token))
      (fun o _ => ∀ t ∈ o, t.kind = .comment ∨ t.kind = .delimiter ∨ '\n' ∉ Glyph.spelling t.glyphs)
      fun _ _ => True :=
    (readToken_spares Table.sound_text Table.breaks_text).onState (fun _ _ => rfl) (fun _ _ _ _ h => h)
      fun _ _ _ _ _ => trivial
  refine hread.bind fun o => ?_
  match o with
  | none => exact .pure _ fun _ _ => nofun
  | some t =>
    intro l ht
    refine ((classify_fares t).bind fun u => .pure _ fun _ hu => ?_) l trivial
    rintro _ ⟨⟩ hk
    rw [hu.1]
    have hspace : t.kind.isSpace ≠ true := fun h => by
      rw [hu.2 h] at hk
      cases hk
    rcases ht t rfl with hc | hd | hn
    · exact absurd (by rw [hc]; rfl) hspace
    · exact absurd (by rw [hd]; rfl) hspace
    · exact hn

end Lexer

namespace Token

/-- A lexer returned the token by itself: from any bytes, and after any other calls. -/
def Returned (t : Token) : Prop :=
  ∃ (feed : Feed) (name : Option String) (trigraphs : Bool) (reserved : List String) (requests : List Request)
    (replies : List Reply),
    ((Lexer.answers requests).run (.ofFile (.ofFeed feed name) trigraphs reserved)).1 = .ok replies ∧
      Reply.token (.ok (some t)) ∈ replies

theorem Returned.lexed {t : Token} (h : t.Returned) : t.Lexed := by
  obtain ⟨feed, name, trigraphs, reserved, requests, replies, hrun, ht⟩ := h
  exact ⟨feed, name, trigraphs, reserved, requests, replies, _, hrun, ht, List.mem_cons_self⟩

/-- What calls about some text return are tokens that a lexer returned. -/
theorem returned_of_run {feed : Feed} {name : Option String} {trigraphs : Bool} {reserved : List String}
    {requests : List Request} {os : List (Except Fault (Option Token))} {t : Token}
    (h : ((Lexer.answers requests).run (.ofFile (.ofFeed feed name) trigraphs reserved)).1.toOption.map
      (·.filterMap Reply.token?) = some os) (ht : .ok (some t) ∈ os) : t.Returned := by
  obtain ⟨replies, hr, rfl⟩ := Option.map_eq_some_iff.1 h
  obtain ⟨r, hmem, ht⟩ := List.mem_filterMap.1 ht
  match hrun : ((Lexer.answers requests).run (.ofFile (.ofFeed feed name) trigraphs reserved)).1, hr, r, ht with
  | .ok _, rfl, .token _, rfl => exact ⟨feed, name, trigraphs, reserved, requests, replies, hrun, hmem⟩

/-- **There is no line feed in a token, unless it is white space or a comment.** -/
theorem Returned.newline_notMem {t : Token} (h : t.Returned) (hk : t.kind.isSpace = false) :
    '\n' ∉ Glyph.spelling t.glyphs := by
  obtain ⟨feed, name, trigraphs, reserved, requests, replies, hrun, ht⟩ := h
  have hfine : (Phases.lawful Glyph.closed_placed).Fine (.ofFile (.ofFeed feed name) trigraphs) :=
    ⟨File.fine_lawful Glyph.closed_placed feed name, nofun⟩
  obtain ⟨replies', l', hl', hall⟩ := Lexer.forall_answers
    (R := fun r => ∀ t, r = .token (.ok (some t)) → t.kind.isSpace = false → '\n' ∉ Glyph.spelling t.glyphs)
    Phases.fine_of_failed (fun {request reply l l'} _ ha t hr => by
      subst hr
      cases Lexer.answered_of_answer ha with
      | token run => exact Lexer.nextToken_spares.ok trivial run t rfl) requests
    (l := ⟨.ofFile (.ofFeed feed name) trigraphs reserved, []⟩) hfine
  rw [ScanM.run_of_ok hl'] at hrun
  cases hrun
  exact hall _ ht t rfl hk

end Token

end Pretoken
