import Pretoken.Proofs.Shifting
import Pretoken.Proofs.Tandem

/-!
# Sources that follow each other

If one source follows another, with its text some lines further down, then so does everything that is
built on it: the stages, a scanner, a directive line and a lexer. Nothing is asked of the sources but that
they follow when a glyph is taken and when one is given back.

* `Pact`: two sources of which the left one follows.
* `Pact.trigraph`, `Pact.splice`: the stages on top of them.
* `Pact.scanner`, `Pact.line`, `Pact.lexer`: what reads from them.
* **`Pact.readToken`**, `Pact.readDirective`, **`Pact.nextToken`**: the left one gives the same tokens, with
  their text further down.
* `Pact.yields`, `Pact.reads`: and so for many tokens, and for whole texts.
-/

namespace Pretoken

open Bond (Follows)

/-- Two sources, of which the left one follows the right one `lines` lines further down. -/
structure Pact (σ τ : Type) [Source σ] [Source τ] extends Bond σ τ where
  /-- By how many lines the text of the left source is further down. -/
  lines : Nat
  take : toBond.Follows (Glyph.down lines) Source.take Source.take
  giveBack : ∀ g, toBond.Follows id (Source.giveBack (g.down lines)) (Source.giveBack g)

namespace Pact

variable {σ τ : Type} [Source σ] [Source τ] (P : Pact σ τ)

theorem restore (g : Glyph) :
    P.Follows id (Source.restore (g.down P.lines)) (Source.restore g) := by
  unfold Source.restore
  rw [Glyph.isEof_down]
  exact .ite Iff.rfl (fun _ => .pure rfl) fun _ => P.giveBack g

/-- The same, and the right source is in a condition that it never leaves. -/
def guard (I : τ → Prop) (ht : ∀ t : Logged τ, I t.state → I (ScanM.left (Source.take t)))
    (hb : ∀ (g : Glyph) (t : Logged τ), I t.state → I (ScanM.left (Source.giveBack g t))) : Pact σ τ where
  toBond := P.toBond.guard I
  lines := P.lines
  take := P.take.guard ht
  giveBack g := (P.giveBack g).guard (hb g)

/-! ## Trigraphs -/

section Trigraphs

open Trigraph (afterMarks replaceNext)

theorem afterMarks (first second : Glyph) :
    P.Follows (Glyph.down P.lines) (afterMarks (first.down P.lines) (second.down P.lines))
      (afterMarks first second) := by
  refine P.take.bind fun third => ?_
  rw [Glyph.value?_down]
  split
  · next c _ =>
    have hmerge := Glyph.merge_down P.lines c [first, second, third]
    rw [List.map_cons, List.map_cons, List.map_singleton] at hmerge
    rw [hmerge]
    exact (Follows.require _).bind fun g => .emit_bind (.pure rfl)
  · exact (P.restore third).bind fun _ => (P.giveBack second).bind fun _ => .pure rfl

theorem replaceNext : P.Follows (Glyph.down P.lines) replaceNext replaceNext := by
  refine P.take.bind fun first => ?_
  rw [Glyph.is_down]
  refine .ite Iff.rfl (fun _ => P.take.bind fun second => ?_) fun _ => .pure rfl
  rw [Glyph.is_down]
  exact .ite Iff.rfl (fun _ => P.afterMarks first second) fun _ =>
    (P.restore second).bind fun _ => .pure rfl

/-- Two stages over the sources, both enabled or neither. -/
def trigraphBond : Bond (Trigraph σ) (Trigraph τ) where
  Rel s t := P.Rel s.below t.below ∧ s.enabled = t.enabled
  Lost t := P.Lost t.below
  fault? := P.fault?

variable {P} in
theorem trigraph_onBelow {α β : Type} {φ : β → α} {m : ScanM σ α} {n : ScanM τ β}
    (h : P.Follows φ m n) :
    P.trigraphBond.Follows φ (Trigraph.onBelow m) (Trigraph.onBelow n) :=
  h.onState rfl (fun _ _ hs => hs.1) (fun _ _ _ _ hs hb => ⟨hb, hs.2⟩) (fun _ hl => hl) fun _ _ hl => hl

/-- **The trigraph stage follows.** -/
def trigraph : Pact (Trigraph σ) (Trigraph τ) where
  toBond := P.trigraphBond
  lines := P.lines
  take := by
    change P.trigraphBond.Follows _ Trigraph.take Trigraph.take
    refine ⟨fun t ht => ?_, fun s t hs => ?_⟩
    · unfold Trigraph.take
      split
      · exact (trigraph_onBelow P.replaceNext).lost t ht
      · exact (trigraph_onBelow P.take).lost t ht
    · unfold Trigraph.take
      rw [hs.2]
      split
      · exact (trigraph_onBelow P.replaceNext).step s t hs
      · exact (trigraph_onBelow P.take).step s t hs
  giveBack g := trigraph_onBelow (P.giveBack g)

end Trigraphs

/-! ## Splices -/

section Splices

open Splice (spliceTurn spliceAll)

theorem spliceTurn (removed : List Glyph) :
    P.Follows (Turn.map (List.map (Glyph.down P.lines)) (Prod.map (List.map (Glyph.down P.lines))
      (Glyph.down P.lines))) (spliceTurn (removed.map (Glyph.down P.lines))) (spliceTurn removed) := by
  have hdone (g : Glyph) : (.done ((removed.map (Glyph.down P.lines)).reverse, g.down P.lines) :
      Turn (List Glyph) (List Glyph × Glyph)) = Turn.map (List.map (Glyph.down P.lines))
        (Prod.map (List.map (Glyph.down P.lines)) (Glyph.down P.lines)) (.done (removed.reverse, g)) := by
    rw [← List.map_reverse]
    rfl
  refine P.take.bind fun g => ?_
  rw [Glyph.is_down]
  refine .ite Iff.rfl (fun _ => P.take.bind fun after => ?_) fun _ => .pure (hdone g)
  rw [Glyph.is_down]
  refine .ite Iff.rfl (fun _ => ?_) fun _ => (P.restore after).bind fun _ => .pure (hdone g)
  refine .silent_bind (fun s => ⟨_, s.log, rfl⟩) (fun t => ⟨_, t.log, rfl⟩) fun _ _ => ?_
  exact .emit_bind (.pure rfl)

theorem spliceAll : P.Follows (Prod.map (List.map (Glyph.down P.lines)) (Glyph.down P.lines))
    spliceAll spliceAll :=
  Follows.loop (χ := List.map (Glyph.down P.lines)) P.spliceTurn []

/-- An end further down. -/
def downEnd (k : Nat) (e : { g : Glyph // g.isEof = true }) : { g : Glyph // g.isEof = true } :=
  ⟨e.1.down k, (Glyph.isEof_down k e.1).trans e.2⟩

/-- Two stages over the sources, with the same end if there is one. -/
def spliceBond : Bond (Splice σ) (Splice τ) where
  Rel s t := P.Rel s.below t.below ∧ s.ending = t.ending.map (downEnd P.lines)
  Lost t := P.Lost t.below
  fault? := P.fault?

variable {P} in
theorem splice_onBelow {α β : Type} {φ : β → α} {m : ScanM σ α} {n : ScanM τ β} (h : P.Follows φ m n) :
    P.spliceBond.Follows φ (Splice.onBelow m) (Splice.onBelow n) :=
  h.onState rfl (fun _ _ hs => hs.1) (fun _ _ _ _ hs hb => ⟨hb, hs.2⟩) (fun _ hl => hl) fun _ _ hl => hl

theorem remember (g : Glyph) :
    P.spliceBond.Follows id (Splice.remember (g.down P.lines)) (Splice.remember g) := by
  unfold Splice.remember
  by_cases hg : g.isEof = true
  · rw [dif_pos hg, dif_pos ((Glyph.isEof_down P.lines g).trans hg)]
    exact .change (fun s t hs => ⟨hs.1, rfl⟩) fun _ hl => hl
  · rw [dif_neg hg, dif_neg (by rwa [Glyph.isEof_down])]
    exact .pure rfl

theorem decorate (removed : List Glyph) (g : Glyph) :
    P.spliceBond.Follows (Glyph.down P.lines)
      (Splice.decorate (removed.map (Glyph.down P.lines)) (g.down P.lines)) (Splice.decorate removed g) := by
  unfold Splice.decorate
  rw [List.isEmpty_map, Glyph.splice_down]
  exact .ite Iff.rfl (fun _ => .pure rfl) fun _ => .require _

theorem splice_take : P.spliceBond.Follows (Glyph.down P.lines) Splice.take Splice.take := by
  have hending : P.spliceBond.Follows (Option.map (downEnd P.lines)) (ScanM.view Splice.ending)
      (ScanM.view Splice.ending) := .view fun s t hs => hs.2
  refine (splice_onBelow P.spliceAll).bind fun r => hending.bind fun ending => ?_
  have hgo : P.spliceBond.Follows (Glyph.down P.lines)
      (do let g ← Splice.decorate (r.1.map (Glyph.down P.lines)) (r.2.down P.lines)
          Splice.remember g
          return g)
      (do let g ← Splice.decorate r.1 r.2
          Splice.remember g
          return g) :=
    (P.decorate r.1 r.2).bind fun g => (P.remember g).bind fun _ => .pure rfl
  rw [Glyph.isEof_down]
  match r.2.isEof, ending with
  | true, some e => exact .pure rfl
  | true, none => exact hgo
  | false, some e => exact hgo
  | false, none => exact hgo

/-- **The splicing stage follows.** -/
def splice : Pact (Splice σ) (Splice τ) where
  toBond := P.spliceBond
  lines := P.lines
  take := P.splice_take
  giveBack g := splice_onBelow (P.giveBack g)

end Splices

/-! ## Moves of a scanner -/

section Scanners

open Scanner

/-- Two scanners with the same draft. -/
def scanner : Bond (Scanner σ) (Scanner τ) where
  Rel s t := P.Rel s.source t.source ∧ s.draft = t.draft.down P.lines
  Lost t := P.Lost t.source
  fault? := P.fault?

variable {P} in
theorem onSource {α β : Type} {φ : β → α} {m : ScanM σ α} {n : ScanM τ β} (h : P.Follows φ m n) :
    P.scanner.Follows φ (onSource m) (onSource n) :=
  h.onState rfl (fun _ _ hs => hs.1) (fun _ _ _ _ hs hb => ⟨hb, hs.2⟩) (fun _ hl => hl) fun _ _ hl => hl

theorem next : P.scanner.Follows (Glyph.down P.lines) next next := onSource P.take

theorem putBack (g : Glyph) : P.scanner.Follows id (putBack (g.down P.lines)) (putBack g) :=
  onSource (P.restore g)

theorem keep (g : Glyph) : P.scanner.Follows id (keep (g.down P.lines)) (keep g) :=
  .change (fun s t hs => ⟨hs.1, by rw [hs.2]; rfl⟩) fun _ hl => hl

theorem undo : P.scanner.Follows id undo undo := by
  refine ⟨fun t ht => ?_, fun s t hs => ?_⟩
  · unfold Scanner.undo
    split
    · exact ht
    · next g gs _ => exact (onSource (P.giveBack g)).lost _ ht
  · obtain ⟨⟨source, draft⟩, log⟩ := s
    obtain ⟨⟨source', ⟨gs⟩⟩, log'⟩ := t
    obtain ⟨hs, rfl⟩ : P.Rel source source' ∧ draft = Draft.down P.lines ⟨gs⟩ := hs
    cases gs with
    | nil => exact .inl ⟨rfl, hs, rfl⟩
    | cons g gs => exact (onSource (P.giveBack g)).step ⟨⟨source, Draft.down P.lines ⟨gs⟩⟩, log⟩ _ ⟨hs, rfl⟩

theorem undoMany (n : Nat) : P.scanner.Follows id (undoMany n) (undoMany n) := by
  induction n with
  | zero => exact .pure rfl
  | succ n ih => exact P.undo.bind fun _ => ih

theorem revise {f : Draft → Except Violation Draft}
    (hf : ∀ d : Draft, f (d.down P.lines) = (f d).map (Draft.down P.lines)) :
    P.scanner.Follows id (revise f) (revise f) := by
  refine ⟨fun t ht => ?_, fun s t hs => ?_⟩
  · unfold Scanner.revise
    split <;> exact ht
  · unfold Scanner.revise
    rw [hs.2, hf]
    cases f t.state.draft with
    | ok d => exact .inl ⟨rfl, hs.1, rfl⟩
    | error v => exact .inl rfl

theorem accept (p : Char → Bool) : P.scanner.Follows id (accept p) (accept p) := by
  refine P.next.bind fun g => ?_
  rw [Glyph.value?_down]
  exact .ite Iff.rfl (fun _ => (P.keep g).bind fun _ => .pure rfl) fun _ =>
    (P.putBack g).bind fun _ => .pure rfl

theorem acceptUpTo (p : Char → Bool) (n : Nat) :
    P.scanner.Follows id (acceptUpTo p n) (acceptUpTo p n) := by
  induction n with
  | zero => exact .pure rfl
  | succ n ih =>
    refine (P.accept p).bind fun b => ?_
    exact .ite Iff.rfl (fun _ => ih.bind fun m => .pure rfl) fun _ => .pure rfl

/-- Loops without a value to go on with. -/
theorem loop {body : Unit → ScanM (Scanner σ) (Turn Unit Unit)}
    {body' : Unit → ScanM (Scanner τ) (Turn Unit Unit)} {μ : Logged (Scanner σ) → Nat}
    {ν : Logged (Scanner τ) → Nat} {paid : ∀ c, Draws μ (body c)} {paid' : ∀ c, Draws ν (body' c)}
    (h : P.scanner.Follows id (body ()) (body' ())) :
    P.scanner.Follows id (loop μ body paid ()) (loop ν body' paid' ()) := by
  refine Follows.loop (χ := id) (fun _ => ?_) ()
  have hid : (Turn.map id id : Turn Unit Unit → Turn Unit Unit) = id := by
    funext t
    cases t <;> rfl
  rw [hid]
  exact h

theorem acceptWhile (p : Char → Bool) : P.scanner.Follows id (acceptWhile p) (acceptWhile p) :=
  P.loop ((P.accept p).map fun _ => rfl)

/-! ## Routines -/

theorem blockComment : P.scanner.Follows id blockComment blockComment := by
  refine P.loop (P.next.bind fun g => ?_)
  rw [Glyph.isEof_down, Glyph.is_down]
  refine .ite Iff.rfl (fun _ => .pure rfl) fun _ => (P.keep g).bind fun _ => ?_
  refine .ite Iff.rfl (fun _ => (P.accept _).bind fun b => ?_) fun _ => .pure rfl
  exact .ite Iff.rfl (fun _ => .pure rfl) fun _ => .pure rfl

theorem headerName (closing : Char) :
    P.scanner.Follows id (headerName closing) (headerName closing) := by
  refine P.loop (P.next.bind fun g => ?_)
  rw [Glyph.value?_down]
  cases g.value? with
  | none => exact .pure rfl
  | some c =>
    refine .ite Iff.rfl (fun _ => (P.putBack g).bind fun _ => .pure rfl) fun _ =>
      (P.keep g).bind fun _ => ?_
    exact .ite Iff.rfl (fun _ => .pure rfl) fun _ => .pure rfl

theorem escape : P.scanner.Follows id escape escape := by
  refine P.next.bind fun g => ?_
  rw [Glyph.value?_down]
  cases g.value? with
  | none => exact .pure rfl
  | some c =>
    refine .ite Iff.rfl (fun _ => P.putBack g) fun _ => (P.keep g).bind fun _ => ?_
    refine .ite Iff.rfl (fun _ => (P.acceptUpTo _ _).discard) fun _ => ?_
    refine .ite Iff.rfl (fun _ => P.acceptWhile _) fun _ => ?_
    refine .ite Iff.rfl (fun _ => (P.acceptUpTo _ _).discard) fun _ => ?_
    exact .ite Iff.rfl (fun _ => (P.acceptUpTo _ _).discard) fun _ => .pure rfl

theorem literal (quote : Char) : P.scanner.Follows id (literal quote) (literal quote) := by
  refine P.loop (P.next.bind fun g => ?_)
  rw [Glyph.value?_down]
  cases g.value? with
  | none => exact .pure rfl
  | some c =>
    refine .ite Iff.rfl (fun _ => (P.putBack g).bind fun _ => .pure rfl) fun _ =>
      (P.keep g).bind fun _ => ?_
    refine .ite Iff.rfl (fun _ => .pure rfl) fun _ => ?_
    exact .ite Iff.rfl (fun _ => P.escape.bind fun _ => .pure rfl) fun _ => .pure rfl

theorem universalDigits (digits : Nat) :
    P.scanner.Follows id (universalDigits digits) (universalDigits digits) := by
  refine (P.acceptUpTo isHex digits).bind fun found => ?_
  refine .ite Iff.rfl (fun _ => .pure rfl) fun _ => ?_
  refine .silent_bind (fun s => ⟨_, s.log, rfl⟩) (fun t => ⟨_, t.log, rfl⟩) fun _ _ => ?_
  exact .emit_bind ((P.undoMany _).bind fun _ => .pure rfl)

theorem universalTail : P.scanner.Follows id universalTail universalTail := by
  refine P.next.bind fun g => ?_
  rw [Glyph.is_down, Glyph.is_down]
  refine .ite Iff.rfl (fun _ => (P.keep g).bind fun _ => P.universalDigits 4) fun _ => ?_
  exact .ite Iff.rfl (fun _ => (P.keep g).bind fun _ => P.universalDigits 8) fun _ =>
    (P.putBack g).bind fun _ => .pure rfl

theorem identifier [Alphabet] : P.scanner.Follows id identifier identifier := by
  refine P.loop (P.next.bind fun g => ?_)
  rw [Glyph.value?_down]
  cases g.value? with
  | none => exact .pure rfl
  | some c =>
    refine .ite Iff.rfl (fun _ => (P.keep g).bind fun _ => .pure rfl) fun _ => ?_
    refine .ite Iff.rfl (fun _ => (P.keep g).bind fun _ => P.universalTail.bind fun b => ?_) fun _ =>
      (P.putBack g).bind fun _ => .pure rfl
    exact .ite Iff.rfl (fun _ => .pure rfl) fun _ => P.undo.bind fun _ => .pure rfl

theorem afterExponent_eq {s : Scanner σ} {t : Scanner τ} (h : P.scanner.Rel s t) :
    afterExponent s = afterExponent t := by
  unfold afterExponent Draft.last?
  rw [h.2]
  cases hd : t.draft.newestFirst with
  | nil => simp [Draft.down, hd]
  | cons g gs => simp [Draft.down, hd]

theorem number [Alphabet] : P.scanner.Follows id number number := by
  have hsigned : P.scanner.Follows id (ScanM.view afterExponent) (ScanM.view afterExponent) :=
    .view fun s t hs => P.afterExponent_eq hs
  refine P.loop (hsigned.bind fun signed => P.next.bind fun g => ?_)
  rw [Glyph.value?_down]
  cases g.value? with
  | none => exact .pure rfl
  | some c =>
    exact .ite Iff.rfl (fun _ => (P.keep g).bind fun _ => .pure rfl) fun _ =>
      (P.putBack g).bind fun _ => .pure rfl

theorem sharpDigraph : P.scanner.Follows id sharpDigraph sharpDigraph := by
  have collapsed : P.scanner.Follows id (Scanner.revise (·.collapse Digraph.sharp.primary))
      (Scanner.revise (·.collapse Digraph.sharp.primary)) :=
    P.revise fun d => d.collapse_down P.lines _
  refine P.next.bind fun percent => ?_
  rw [Glyph.is_down]
  refine .ite Iff.rfl (fun _ => P.next.bind fun colon => ?_) fun _ =>
    collapsed.bind fun _ => P.putBack percent
  rw [Glyph.is_down]
  refine .ite Iff.rfl (fun _ => (P.keep percent).bind fun _ => (P.keep colon).bind fun _ => ?_) fun _ =>
    (P.putBack colon).bind fun _ => (P.putBack percent).bind fun _ => collapsed
  exact P.revise fun d => d.collapseTwo_down P.lines _ _

/-! ## Following a table -/

variable [Alphabet]

theorem runRoutine (r : Routine) : P.scanner.Follows id r.run r.run := by
  cases r with
  | blanks => exact (P.acceptWhile _).bind fun _ => .pure rfl
  | directiveBlanks => exact (P.acceptWhile _).bind fun _ => .pure rfl
  | blockComment => exact P.blockComment.bind fun _ => .pure rfl
  | lineComment => exact (P.acceptWhile _).bind fun _ => .pure rfl
  | literal quote kind => exact (P.literal quote).bind fun _ => .pure rfl
  | headerName closing kind => exact (P.headerName closing).bind fun _ => .pure rfl
  | identifier => exact P.identifier.bind fun _ => .pure rfl
  | universalName digits =>
    refine (P.universalDigits digits).bind fun b => ?_
    exact .ite Iff.rfl (fun _ => P.identifier.bind fun _ => .pure rfl) fun _ => .pure rfl
  | number => exact P.number.bind fun _ => .pure rfl
  | ellipsis =>
    refine (P.accept _).bind fun b => ?_
    exact .ite Iff.rfl (fun _ => .pure rfl) fun _ => P.undo.bind fun _ => .pure rfl
  | digraph d => exact (P.revise fun e => e.collapse_down P.lines _).bind fun _ => .pure rfl
  | sharpDigraph kind => exact P.sharpDigraph.bind fun _ => .pure rfl
  | shift c =>
    exact (P.accept _).discard.bind fun _ => (P.accept _).discard.bind fun _ => .pure rfl

theorem runRule (r : Rule) : P.scanner.Follows id r.run r.run := by
  cases r with
  | fixed kind => exact .pure rfl
  | routine r => exact P.runRoutine r

mutual

theorem runAction : (action : Action) → P.scanner.Follows id action.run action.run
  | .finish rule => P.runRule rule
  | .nested cases otherwise => by
    unfold Action.run
    exact P.next.bind fun g => chooseCase cases otherwise g

theorem chooseCase : (cases : List Case) → (otherwise : Rule) → (g : Glyph) →
    P.scanner.Follows id (Case.choose cases otherwise (g.down P.lines)) (Case.choose cases otherwise g)
  | [], otherwise, g => by
    unfold Case.choose
    exact (P.putBack g).bind fun _ => P.runRule otherwise
  | ⟨chars, action⟩ :: cases, otherwise, g => by
    unfold Case.choose
    rw [Glyph.value?_down]
    exact .ite Iff.rfl (fun _ => (P.keep g).bind fun _ => runAction action) fun _ =>
      chooseCase cases otherwise g

end

theorem readRest (table : Table) (lead : Char) :
    P.scanner.Follows id (readRest table lead) (readRest table lead) := by
  unfold Scanner.readRest
  split
  · next action _ => exact P.runAction action
  · exact .ite Iff.rfl (fun _ => P.runRoutine .identifier) fun _ => .pure rfl

omit [Alphabet] in
theorem finish (kind : TokenKind) :
    P.scanner.Follows (Token.down P.lines) (finish kind) (finish kind) := by
  refine ⟨fun t ht => ?_, fun s t hs => ?_⟩
  · unfold Scanner.finish
    split <;> exact ht
  · unfold Scanner.finish
    rw [hs.2, Draft.toToken_down]
    cases t.state.draft.toToken kind with
    | ok u => exact .inl ⟨rfl, hs.1, rfl⟩
    | error v => exact .inl rfl

/-- **The same token is read**, further down. -/
theorem readToken (table : Table) :
    P.scanner.Follows (Option.map (Token.down P.lines)) (readToken table) (readToken table) := by
  refine P.next.bind fun g => ?_
  rw [Glyph.value?_down]
  cases g.value? with
  | none => exact .pure rfl
  | some lead =>
    exact (P.keep g).bind fun _ => (P.readRest table lead).bind fun kind =>
      (P.finish kind).bind fun t => .pure rfl

end Scanners

/-! ## Directives -/

section Directives

open DirectiveLine

/-- Two lines with the same tokens. -/
def line : Bond (DirectiveLine σ) (DirectiveLine τ) where
  Rel s t := P.scanner.Rel s.scanner t.scanner ∧ s.newestFirst = t.newestFirst.map (Token.down P.lines)
  Lost t := P.Lost t.scanner.source
  fault? := P.fault?

theorem push (t : Token) : P.line.Follows id (push (t.down P.lines)) (push t) :=
  .change (fun l l' hs => ⟨hs.1, by rw [hs.2]; rfl⟩) fun _ hl => hl

theorem lineToken [Alphabet] (reserved : List String) (table : Table) :
    P.line.Follows (Option.map (Token.down P.lines)) (DirectiveLine.readToken reserved table)
      (DirectiveLine.readToken reserved table) := by
  have h : P.scanner.Follows (Option.map (Token.down P.lines))
      (Option.map (Token.reserve reserved) <$> Scanner.readToken table)
      (Option.map (Token.reserve reserved) <$> Scanner.readToken table) :=
    (P.readToken table).map fun o => by
      cases o with
      | none => rfl
      | some t => exact congrArg some (t.reserve_down P.lines reserved)
  exact h.onState rfl (fun _ _ hs => hs.1) (fun _ _ _ _ hs hb => ⟨hb, hs.2⟩) (fun _ hl => hl) fun _ _ hl => hl

theorem noteAll (e e' : Option Event) : P.line.Follows id (noteAll e) (noteAll e') := by
  have hsilent {υ : Type} [Source υ] (e : Option Event) :
      (DirectiveLine.noteAll e : ScanM (DirectiveLine υ) Unit).Silent := by
    intro s
    cases e with
    | none => exact ⟨(), s.log, rfl⟩
    | some e => exact ⟨(), e :: s.log, rfl⟩
  have h := Follows.silent_bind (B := P.line) (ψ := id) (f := fun _ => Pure.pure ()) (g := fun _ => Pure.pure ())
    (hsilent e) (hsilent e') fun _ _ => .pure rfl
  simpa using h

variable [Alphabet]

theorem lineTurn (reserved : List String) (place : LinePlace) :
    P.line.Follows id (lineTurn reserved place) (lineTurn reserved place) := by
  refine (P.lineToken reserved place.table).bind fun o => ?_
  cases o with
  | none => exact .emit_bind (.pure rfl)
  | some t =>
    refine (P.noteAll _ _).bind fun _ => ?_
    simp only [LinePlace.mark_down, LinePlace.next_down]
    exact (P.push _).bind fun _ => .pure rfl

theorem readFrom (reserved : List String) (place : LinePlace) :
    P.line.Follows id (readFrom reserved place) (readFrom reserved place) := by
  refine Follows.loop (χ := id) (fun place => ?_) place
  have hid : (Turn.map id id : Turn LinePlace Unit → Turn LinePlace Unit) = id := by
    funext t
    cases t <;> rfl
  rw [hid]
  exact P.lineTurn reserved place

/-- **The same children are read**, further down. -/
theorem readDirective (reserved : List String) :
    P.scanner.Follows (List.map (Token.down P.lines)) (Scanner.readDirective reserved)
      (Scanner.readDirective reserved) := by
  unfold Scanner.readDirective
  rw [readDirective_eq_loop, readDirective_eq_loop]
  have hread : P.line.Follows (List.map (Token.down P.lines))
      (do DirectiveLine.readFrom reserved .name
          ScanM.view DirectiveLine.children)
      (do DirectiveLine.readFrom reserved .name
          ScanM.view DirectiveLine.children) :=
    (P.readFrom reserved .name).bind fun _ => .view fun s t hs => by
      rw [children, children, hs.2, List.map_reverse]
  exact hread.onState rfl (fun _ _ hs => ⟨hs, rfl⟩) (fun _ _ _ _ _ hb => hb.1) (fun _ hl => hl)
    fun _ _ hl => hl

end Directives

/-! ## Lexers -/

section Lexers

open Lexer

/-- Two lexers of the same configuration, at the same place of a line. -/
def lexer : Bond (Lexer σ) (Lexer τ) where
  Rel s t := P.Rel s.source t.source ∧ s.reserved = t.reserved ∧ s.atLineStart = t.atLineStart
  Lost t := P.Lost t.source
  fault? := P.fault?

variable {P} in
theorem withScanner {α β : Type} {φ : β → α} {m : ScanM (Scanner σ) α} {n : ScanM (Scanner τ) β}
    (h : P.scanner.Follows φ m n) : P.lexer.Follows φ (withScanner m) (withScanner n) :=
  h.onState rfl (fun _ _ hs => ⟨hs.1, rfl⟩) (fun _ _ _ _ hs hb => ⟨hb.1, hs.2⟩) (fun _ hl => hl)
    fun _ _ hl => hl

theorem setLineStart (b : Bool) : P.lexer.Follows id (setLineStart b) (setLineStart b) :=
  .change (fun _ _ hs => ⟨hs.1, hs.2.1, rfl⟩) fun _ hl => hl

variable [Alphabet]

theorem classify (t : Token) :
    P.lexer.Follows (Token.down P.lines) (classify (t.down P.lines)) (classify t) := by
  unfold Lexer.classify
  simp only [Token.kind_down, Token.value_down]
  have hreserved : P.lexer.Follows id (ScanM.view Lexer.reserved) (ScanM.view Lexer.reserved) :=
    .view fun s t hs => hs.2.1
  have hstart : P.lexer.Follows id (ScanM.view Lexer.atLineStart) (ScanM.view Lexer.atLineStart) :=
    .view fun s t hs => hs.2.2
  refine .ite Iff.rfl (fun _ => ?_) fun _ => hstart.bind fun start => ?_
  · exact .ite Iff.rfl (fun _ => (P.setLineStart true).bind fun _ => .pure rfl) fun _ => .pure rfl
  · refine .ite Iff.rfl (fun _ => hreserved.bind fun reserved => ?_) fun _ =>
      (P.setLineStart false).bind fun _ => hreserved.bind fun reserved => ?_
    · refine (withScanner (P.readDirective reserved)).bind fun cs => .pure ?_
      rw [Token.withChildren_down, Token.withKind_down]
    · exact .pure (t.reserve_down P.lines reserved)

/-- **A lexer follows**, with the same tokens further down. -/
theorem nextToken : P.lexer.Follows (Option.map (Token.down P.lines)) nextToken nextToken := by
  refine (withScanner (P.readToken .text)).bind fun o => ?_
  cases o with
  | none => exact .pure rfl
  | some t => exact (P.classify t).bind fun _ => .pure rfl

omit [Alphabet] in
theorem eof? : P.lexer.Follows (Option.map (Glyph.down P.lines)) eof? eof? := by
  have h : P.Follows (Option.map (Glyph.down P.lines))
      (do let g ← Source.take
          if g.isEof then return some g
          else
            Source.giveBack g
            return none)
      (do let g ← Source.take
          if g.isEof then return some g
          else
            Source.giveBack g
            return none) := by
    refine P.take.bind fun g => ?_
    rw [Glyph.isEof_down]
    exact .ite Iff.rfl (fun _ => .pure rfl) fun _ => (P.giveBack g).bind fun _ => .pure rfl
  unfold Lexer.eof? Lexer.onSource
  exact h.onState rfl (fun _ _ hs => hs.1) (fun _ _ _ _ hs hb => ⟨hb, hs.2⟩) (fun _ hl => hl) fun _ _ hl => hl

theorem lost_of_yields {ts : List Token} {l l' : Logged (Lexer τ)} (h : Yields ts l l')
    (hl : P.lexer.Lost l.state) : P.lexer.Lost l'.state := by
  induction ts generalizing l with
  | nil =>
    obtain rfl : l = l' := h
    exact hl
  | cons t ts ih =>
    obtain ⟨l₁, h₁, h⟩ := h
    have hlost := P.nextToken.lost l hl
    rw [h₁] at hlost
    exact ih h hlost

/-- **The tokens of a lexer that is not lost at the end** are those of the other one, further down. -/
theorem yields {ts : List Token} {s : Logged (Lexer σ)} {l l' : Logged (Lexer τ)}
    (hs : P.lexer.Rel s.state l.state) (h : Yields ts l l') (hl : ¬ P.lexer.Lost l'.state) :
    ∃ s', Yields (ts.map (Token.down P.lines)) s s' ∧ P.lexer.Rel s'.state l'.state := by
  induction ts generalizing s l with
  | nil =>
    obtain rfl : l = l' := h
    exact ⟨s, rfl, hs⟩
  | cons t ts ih =>
    obtain ⟨l₁, h₁, h⟩ := h
    have hnot : ¬ P.lexer.Lost l₁.state := fun hlost => hl (P.lost_of_yields h hlost)
    obtain ⟨s₁, hs₁, hrel⟩ := P.nextToken.of_ok hs h₁ hnot
    obtain ⟨s', hy, hrel'⟩ := ih hrel h
    exact ⟨s', ⟨s₁, hs₁, hy⟩, hrel'⟩

/-- **The tokens of a lexer that is lost before the end** break off with the fault that it has to
report. -/
theorem tokens_fault {e : Fault} (he : P.fault? = some e) (hr : ∀ s t, P.Rel s t → ¬ P.Lost t)
    {ts : List Token} {s : Logged (Lexer σ)} {l l' l'' : Logged (Lexer τ)}
    (hs : P.lexer.Rel s.state l.state) (h : Yields ts l l') (hn : Lexer.nextToken l' = .ok none l'')
    (hl : P.lexer.Lost l''.state) : ∃ us s', tokens s = .ok (us, .error e) s' := by
  have hfault {s : Logged (Lexer σ)} (ha : P.lexer.Apart (Lexer.nextToken s)) :
      ∃ us s', tokens s = .ok (us, .error e) s' := by
    obtain ⟨s', hs'⟩ := ha e he
    exact ⟨[], s', tokens_error hs'⟩
  induction ts generalizing s l with
  | nil =>
    obtain rfl : l = l' := h
    have hstep := P.nextToken.step s l hs
    rw [hn] at hstep
    rcases hstep with hagree | ⟨-, ha⟩
    · match Lexer.nextToken s, hagree with
      | .ok _ s', ⟨_, hrel⟩ => exact absurd hl (hr _ _ hrel.1)
    · exact hfault ha
  | cons t ts ih =>
    obtain ⟨l₁, h₁, h⟩ := h
    have hstep := P.nextToken.step s l hs
    rw [h₁] at hstep
    rcases hstep with hagree | ⟨-, ha⟩
    · match hs₁ : Lexer.nextToken s, hagree with
      | .ok _ s₁, ⟨rfl, hrel⟩ =>
        obtain ⟨us, s', hus⟩ := ih hrel h
        exact ⟨_, s', tokens_some hs₁ hus⟩
    · exact hfault ha

/-- A lexer that never gets lost reads the same text, further down. -/
theorem reads (hl : ∀ t, ¬ P.Lost t) {ts : List Token} {e : Glyph} {s : Logged (Lexer σ)}
    {l : Logged (Lexer τ)} (hs : P.lexer.Rel s.state l.state) (h : Reads ts e l) :
    Reads (ts.map (Token.down P.lines)) (e.down P.lines) s := by
  obtain ⟨l₁, l₂, l₃, hy, hn, he⟩ := h
  obtain ⟨s₁, hy', hs₁⟩ := P.yields hs hy (hl _)
  obtain ⟨s₂, hn', hs₂⟩ := P.nextToken.of_ok hs₁ hn (hl _)
  obtain ⟨s₃, he', -⟩ := P.eof?.of_ok hs₂ he (hl _)
  exact ⟨s₁, s₂, s₃, hy', hn', he'⟩

end Lexers

end Pact

end Pretoken
