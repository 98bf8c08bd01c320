import Pretoken.Proofs.TokenSteps

/-!
# What a source keeps up

Some property of all glyphs, and of the source they come from, may be kept up by taking and giving back.
Then it is kept up by whatever is built on these: by the stages, by scanners, and by lexers. A failure keeps
up a property of its own.

* `ScanM.Fares`: what comes of a scan, whether it returns or fails, with a rule for every way to build one.
* `Glyph.Closed`: a property that glyphs made of others inherit.
* `Upkeep`: the laws of taking and giving back. `Upkeep.trigraph`, `Upkeep.splice`: the same for the stages.
* `Upkeep.leaving`: an upkeep with more known about failures.
* `Upkeep.readToken`: a token is made of good glyphs, and nothing but taking and giving back can fail.
* **`Upkeep.nextToken`**, **`Upkeep.eof?`**: the same for a lexer.
-/

namespace Pretoken

variable {σ τ α β γ : Type}

/-! ## Results and failures -/

/-- A result has `Q`, a failure has `E`, whatever the log. -/
def Issue (Q : α → σ → Prop) (E : Fault → σ → Prop) : EStateM.Result Fault (Logged σ) α → Prop
  | .ok a s => Q a s.state
  | .error e s => E e s.state

namespace ScanM

/-- From every state with `P`, a result of `m` has `Q`, and a failure of `m` has `E`. -/
def Fares (P : σ → Prop) (m : ScanM σ α) (Q : α → σ → Prop) (E : Fault → σ → Prop) : Prop :=
  ∀ s, P s.state → Issue Q E (m s)

namespace Fares

variable {P P' : σ → Prop} {m : ScanM σ α} {Q Q' : α → σ → Prop} {E : Fault → σ → Prop}

theorem pure (a : α) (h : ∀ s, P s → Q a s) : Fares P (pure a) Q E :=
  fun s hs => h s.state hs

theorem bind {f : α → ScanM σ β} {R : β → σ → Prop} (hm : Fares P m Q E)
    (hf : ∀ a, Fares (Q a) (f a) R E) : Fares P (m >>= f) R E := by
  intro s hs
  have h := hm s hs
  change Issue R E (EStateM.bind m f s)
  unfold EStateM.bind
  match m s, h with
  | .ok a s', h => exact hf a s' h
  | .error e s', h => exact h

theorem map {g : α → β} {R : β → σ → Prop} (hm : Fares P m (fun a => R (g a)) E) : Fares P (g <$> m) R E := by
  intro s hs
  have h := hm s hs
  change Issue R E (EStateM.map g m s)
  unfold EStateM.map
  match m s, h with
  | .ok a s', h => exact h
  | .error e s', h => exact h

/-- A failure that is returned is a result with what a failure has. -/
theorem attempt {E' : Fault → σ → Prop} (hm : Fares P m Q E) : Fares P (attempt m)
    (fun r s => match r with | .ok a => Q a s | .error e => E e s) E' := by
  intro s hs
  have h := hm s hs
  unfold Pretoken.attempt
  match m s, h with
  | .ok a s', h => exact h
  | .error e s', h => exact h

theorem pre (hm : Fares P m Q E) (hp : ∀ s, P' s → P s) : Fares P' m Q E :=
  fun s hs => hm s (hp s.state hs)

theorem post (hm : Fares P m Q E) (hq : ∀ a s, Q a s → Q' a s) : Fares P m Q' E := by
  intro s hs
  have h := hm s hs
  match m s, h with
  | .ok a s', h => exact hq a s'.state h
  | .error e s', h => exact h

/-- What is known of a scan in two ways is known together. -/
theorem and {E' : Fault → σ → Prop} (hm : Fares P m Q E) (hm' : Fares P m Q' E') :
    Fares P m (fun a s => Q a s ∧ Q' a s) fun e s => E e s ∧ E' e s := by
  intro s hs
  have h := hm s hs
  have h' := hm' s hs
  match m s, h, h' with
  | .ok a s', h, h' => exact ⟨h, h'⟩
  | .error e s', h, h' => exact ⟨h, h'⟩

/-- A fact that does not concern the state may be used to choose the proof. -/
theorem of_prop {p : Prop} (h : p → Fares P m Q E) : Fares (fun s => p ∧ P s) m Q E :=
  fun s hs => h hs.1 s hs.2

theorem view (f : σ → α) : Fares P (ScanM.view f) (fun a s => a = f s ∧ P s) E :=
  fun _ hs => ⟨rfl, hs⟩

theorem emit (e : Event) : Fares P (ScanM.emit e) (fun _ => P) E :=
  fun _ hs => hs

theorem change {f : σ → σ} {R : σ → Prop} (h : ∀ s, P s → R (f s)) :
    Fares P (ScanM.change f) (fun _ => R) E :=
  fun s hs => h s.state hs

theorem require {r : Except Violation α} {a : α} (h : r = .ok a) :
    Fares P (ScanM.require r) (fun b s => b = a ∧ P s) E := by
  subst h
  exact fun s hs => ⟨rfl, hs⟩

/-- **An invariant of every turn is an invariant of the loop.** -/
theorem loop {μ : Logged σ → Nat} {body : γ → ScanM σ (Turn γ α)} {paid : ∀ c, Draws μ (body c)}
    {I : γ → σ → Prop} (h : ∀ c, Fares (I c) (body c) (Turn.Post I Q) E) (c : γ) :
    Fares (I c) (loop μ body paid c) Q E := by
  intro s hs
  induction c, s using loop_induct paid with
  | step c s ih =>
    have hb := h c s hs
    rw [loop_eq]
    match hm : body c s, hb with
    | .ok (.again c') s', hb => exact ih c' s' hm hb
    | .ok (.done a) s', hb => exact hb
    | .error e s', hb => exact hb

/-- An invariant of every draw is one of all of them. -/
theorem gather {μ : Logged σ → Nat} {m : ScanM σ (Turn γ α)} {paid : Draws μ m} (h : Fares P m (fun _ => P) E) :
    Fares P (gather μ m paid) (fun _ => P) E := by
  have hturn (seen : List γ) : Fares P (gatherTurn m seen)
      (Turn.Post (fun _ => P) fun r s => match r.2 with | .ok _ => P s | .error e => E e s) E := by
    intro s hs
    have hm := h s hs
    match hr : m s, hm with
    | .ok (.again a) s', hm => rw [gatherTurn_again hr]; exact hm
    | .ok (.done b) s', hm => rw [gatherTurn_done hr]; exact hm
    | .error e s', hm => rw [gatherTurn_error hr]; exact hm
  refine bind (loop hturn []) fun (items, ending) => ?_
  cases ending with
  | ok b => exact .pure _ fun _ hs => hs
  | error e => exact fun _ hs => hs

/-- What a scan of a component does to the whole. -/
theorem onState {view : τ → σ} {put : σ → τ → τ} {R : τ → Prop} {S : α → τ → Prop} {F : Fault → τ → Prop}
    (hm : Fares P m Q E) (hp : ∀ t, R t → P (view t)) (hq : ∀ t a s, R t → Q a s → S a (put s t))
    (he : ∀ t e s, R t → E e s → F e (put s t)) : Fares R (ScanM.onState view put m) S F := by
  intro t ht
  have h := hm ⟨view t.state, t.log⟩ (hp _ ht)
  unfold ScanM.onState onPart
  match m ⟨view t.state, t.log⟩, h with
  | .ok a s, h => exact hq _ a _ ht h
  | .error e s, h => exact he _ e _ ht h

theorem ok (hm : Fares P m Q E) {s s' : Logged σ} {a : α} (hs : P s.state) (h : m s = .ok a s') :
    Q a s'.state := by
  have := hm s hs
  rw [h] at this
  exact this

theorem error (hm : Fares P m Q E) {s s' : Logged σ} {e : Fault} (hs : P s.state) (h : m s = .error e s') :
    E e s'.state := by
  have := hm s hs
  rw [h] at this
  exact this

end Fares

end ScanM

open ScanM (Fares)

/-! ## Glyphs -/

/-- The characters that trigraphs and digraphs stand for. -/
def Text.standIns : List Char := trigraphs.map Prod.snd

theorem Trigraph.replacement?_mem {c v : Char} (h : replacement? c = some v) : v ∈ Text.standIns := by
  unfold replacement? at h
  split at h <;> cases h <;> decide

theorem Digraph.primary_mem (d : Digraph) : d.primary ∈ Text.standIns := by
  cases d <;> decide

/-- A property of characters with a place that every character of a file has, a carriage return excepted, and
that a glyph has if the glyphs that it stands for have it. -/
structure Glyph.Closed (Good : Glyph → Prop) : Prop where
  placed : ∀ {g}, Good g → g.Placed
  plain : ∀ {c} name place, c ≠ '\r' → Good (.plain c name place)
  merged : ∀ {c gs}, gs ≠ [] → (∀ g ∈ gs, Good g) →
    (c ∈ Text.standIns ∨ ∃ g ∈ gs, g.value? = some c) → Good (.merged c gs)

/-- The least such property. -/
theorem Glyph.closed_placed : Closed Placed where
  placed h := h
  plain name place _ := placed_plain _ name place
  merged hne h _ := placed_merged _ hne h

/-- A character has the property, or the parts of an end have it. -/
def Glyph.Admitted (Good : Glyph → Prop) (g : Glyph) : Prop :=
  if g.isEof then ∀ p ∈ g.parts, Good p else Good g

namespace Glyph

variable {Good : Glyph → Prop} {g : Glyph}

theorem Admitted.good (h : g.Admitted Good) (hg : g.isEof = false) : Good g := by
  unfold Admitted at h
  rwa [hg, if_neg Bool.false_ne_true] at h

theorem Admitted.of_value? (h : g.Admitted Good) {c : Char} (hc : g.value? = some c) : Good g :=
  h.good (isEof_eq_false_of_value? hc)

theorem Admitted.of_is (h : g.Admitted Good) {c : Char} (hc : g.is c = true) : Good g :=
  h.of_value? (is_iff.1 hc)

theorem Closed.admitted (hG : Closed Good) (h : Good g) : g.Admitted Good := by
  unfold Admitted
  rwa [(hG.placed h).isEof, if_neg Bool.false_ne_true]

/-- The pairs before a character become a part of it, those before the end a part of the end. -/
theorem Closed.splice (hG : Closed Good) {removed : List Glyph} (hne : removed ≠ [])
    (hr : ∀ r ∈ removed, Good r) (hg : g.Admitted Good) :
    ∃ h, splice removed g = .ok h ∧ h.Admitted Good := by
  cases hv : g.value? with
  | some c =>
    have hall : ∀ r ∈ removed ++ [g], Good r := by
      intro r hr'
      rcases List.mem_append.1 hr' with hr' | hr'
      · exact hr r hr'
      · rw [List.mem_singleton.1 hr']
        exact hg.of_value? hv
    refine ⟨.merged c (removed ++ [g]), ?_, ?_⟩
    · rw [Glyph.splice, hv]
      exact merge_eq c (by simp) fun r hr => hG.placed (hall r hr)
    · exact hG.admitted (hG.merged (by simp) hall (.inr ⟨g, by simp, hv⟩))
  | none =>
    refine ⟨.eof g.file? removed, ?_, hr⟩
    rw [Glyph.splice, hv]
    change endAfter _ _ = _
    rw [endAfter, checkParts_of_placed hne fun r hr' => hG.placed (hr r hr')]
    rfl

end Glyph

/-- A draft of some characters becomes a token. -/
theorem Draft.toToken_of_placed {d : Draft} (k : TokenKind) (hne : d.glyphs ≠ []) (h : ∀ g ∈ d.glyphs, g.Placed) :
    d.toToken k = .ok ⟨d.glyphs, k, []⟩ := by
  have hempty : d.isEmpty = false := by simpa [glyphs, isEmpty] using hne
  rw [toToken, hempty, if_neg Bool.false_ne_true]
  exact Token.make_eq_ok_iff.2 ⟨hne, fun g hg => (h g hg).isEof, rfl⟩

/-! ## Sources -/

/-- What is kept up by taking and giving back: all glyphs that come out of the source are good, the source is
fine, and a failure leaves it in a certain state. -/
structure Upkeep (σ : Type) [Source σ] where
  /-- A property of the glyphs. -/
  Good : Glyph → Prop
  /-- A property of the source. -/
  Fine : σ → Prop
  /-- What is left of the source by a failure. -/
  Failed : Fault → σ → Prop
  closed : Glyph.Closed Good
  take : Fares Fine Source.take (fun g s => g.Admitted Good ∧ Fine s) Failed
  giveBack : ∀ {g}, Good g → Fares Fine (Source.giveBack g) (fun _ => Fine) Failed

namespace Upkeep

variable [Source σ] (U : Upkeep σ) {g : Glyph} {n : Nat}

/-- The same upkeep, where a failure is known to leave `F` as well. -/
def leaving {F : Fault → σ → Prop} (take : Fares U.Fine Source.take (fun _ _ => True) F)
    (giveBack : ∀ {g}, U.Good g → Fares U.Fine (Source.giveBack g) (fun _ _ => True) F) : Upkeep σ where
  Good := U.Good
  Fine := U.Fine
  Failed e s := U.Failed e s ∧ F e s
  closed := U.closed
  take := (U.take.and take).post fun _ _ h => h.1
  giveBack hg := ((U.giveBack hg).and (giveBack hg)).post fun _ _ h => h.1

theorem restore (hg : g.Admitted U.Good) : Fares U.Fine (Source.restore g) (fun _ => U.Fine) U.Failed := by
  unfold Source.restore
  by_cases he : g.isEof = true
  · rw [if_pos he]
    exact .pure _ fun _ hs => hs
  · rw [if_neg he]
    exact U.giveBack (hg.good (by simpa using he))

/-! ## Stages -/

theorem afterMarks {first second : Glyph} (h₁ : U.Good first) (h₂ : U.Good second) :
    Fares U.Fine (Trigraph.afterMarks first second) (fun g s => g.Admitted U.Good ∧ U.Fine s) U.Failed := by
  refine U.take.bind fun third => .of_prop fun h₃ => ?_
  split
  · next c hc =>
    obtain ⟨d, hd, hc⟩ := Option.bind_eq_some_iff.1 hc
    have hall : ∀ g ∈ [first, second, third], U.Good g := by
      simpa using ⟨h₁, h₂, h₃.of_value? hd⟩
    have hm : Glyph.merge c [first, second, third] = .ok (.merged c [first, second, third]) :=
      Glyph.merge_eq c (by simp) fun g hg => U.closed.placed (hall g hg)
    refine (Fares.require hm).bind fun g => .of_prop fun hg => ?_
    refine (Fares.emit _).bind fun _ => .pure _ fun s hs => ⟨?_, hs⟩
    rw [hg]
    exact U.closed.admitted (U.closed.merged (by simp) hall (.inl (Trigraph.replacement?_mem hc)))
  · refine (U.restore h₃).bind fun _ => (U.giveBack h₂).bind fun _ => ?_
    exact .pure _ fun s hs => ⟨U.closed.admitted h₁, hs⟩

theorem replaceNext :
    Fares U.Fine Trigraph.replaceNext (fun g s => g.Admitted U.Good ∧ U.Fine s) U.Failed := by
  refine U.take.bind fun first => .of_prop fun h₁ => ?_
  split
  · next hq =>
    refine U.take.bind fun second => .of_prop fun h₂ => ?_
    split
    · next hq' => exact U.afterMarks (h₁.of_is hq) (h₂.of_is hq')
    · exact (U.restore h₂).bind fun _ => .pure _ fun s hs => ⟨h₁, hs⟩
  · exact .pure _ fun s hs => ⟨h₁, hs⟩

theorem trigraph_onBelow {m : ScanM σ α} {Q : α → σ → Prop} (h : Fares U.Fine m Q U.Failed) :
    Fares (fun s : Trigraph σ => U.Fine s.below) (Trigraph.onBelow m) (fun a s => Q a s.below) fun e s =>
      U.Failed e s.below :=
  h.onState (fun _ hs => hs) (fun _ _ _ _ hq => hq) fun _ _ _ _ he => he

/-- **The upkeep of the stage for trigraphs.** -/
def trigraph : Upkeep (Trigraph σ) where
  Good := U.Good
  Fine s := U.Fine s.below
  Failed e s := U.Failed e s.below
  closed := U.closed
  take := by
    intro s hs
    change Issue _ _ (Trigraph.take s)
    unfold Trigraph.take
    split
    · exact U.trigraph_onBelow U.replaceNext s hs
    · exact U.trigraph_onBelow U.take s hs
  giveBack hg := U.trigraph_onBelow (U.giveBack hg)

theorem spliceTurn {removed : List Glyph} (hr : ∀ r ∈ removed, U.Good r) :
    Fares U.Fine (Splice.spliceTurn removed)
      (Turn.Post (fun rs s => (∀ r ∈ rs, U.Good r) ∧ U.Fine s) fun p s =>
        (∀ r ∈ p.1, U.Good r) ∧ p.2.Admitted U.Good ∧ U.Fine s) U.Failed := by
  have hr' : ∀ r ∈ removed.reverse, U.Good r := fun r hm => hr r (List.mem_reverse.1 hm)
  refine U.take.bind fun g => .of_prop fun hg => ?_
  split
  · next hb =>
    refine U.take.bind fun after => .of_prop fun ha => ?_
    split
    · next hn =>
      refine (Fares.view _).bind fun _ => (Fares.emit _).bind fun _ => .pure _ fun s hs => ⟨?_, hs.2⟩
      intro r hm
      rcases List.mem_cons.1 hm with rfl | hm
      · exact ha.of_is hn
      · rcases List.mem_cons.1 hm with rfl | hm
        · exact hg.of_is hb
        · exact hr r hm
    · exact (U.restore ha).bind fun _ => .pure _ fun s hs => ⟨hr', hg, hs⟩
  · exact .pure _ fun s hs => ⟨hr', hg, hs⟩

theorem spliceAll :
    Fares U.Fine Splice.spliceAll (fun p s => (∀ r ∈ p.1, U.Good r) ∧ p.2.Admitted U.Good ∧ U.Fine s)
      U.Failed := by
  refine (Fares.loop (I := fun rs s => (∀ r ∈ rs, U.Good r) ∧ U.Fine s) (fun rs => .of_prop fun hr =>
    U.spliceTurn hr) []).pre fun s hs => ⟨nofun, hs⟩

/-- The end that a stage remembers has good parts. -/
def EndsWell (s : Splice σ) : Prop := ∀ e, s.ending = some e → e.1.Admitted U.Good

/-- What is remembered of the end does not change with the source below. -/
theorem splice_onBelow {m : ScanM σ α} {Q : α → σ → Prop} (h : Fares U.Fine m Q U.Failed) :
    Fares (fun s => U.Fine s.below ∧ U.EndsWell s) (Splice.onBelow m)
      (fun a s => Q a s.below ∧ U.EndsWell s) fun e s => U.Failed e s.below ∧ U.EndsWell s :=
  h.onState (fun _ hs => hs.1) (fun _ _ _ hs hq => ⟨hq, hs.2⟩) fun _ _ _ hs he => ⟨he, hs.2⟩

theorem decorate {removed : List Glyph} (hr : ∀ r ∈ removed, U.Good r) (hg : g.Admitted U.Good)
    {P : Splice σ → Prop} {E : Fault → Splice σ → Prop} :
    Fares P (Splice.decorate removed g) (fun h s => h.Admitted U.Good ∧ P s) E := by
  unfold Splice.decorate
  split
  · exact .pure _ fun s hs => ⟨hg, hs⟩
  · next hne =>
    obtain ⟨h, hs, hh⟩ := U.closed.splice (by simpa using hne) hr hg
    refine (Fares.require hs).post ?_
    rintro _ s ⟨rfl, hP⟩
    exact ⟨hh, hP⟩

theorem remember (hg : g.Admitted U.Good) {E : Fault → Splice σ → Prop} :
    Fares (fun s => U.Fine s.below ∧ U.EndsWell s) (Splice.remember g)
      (fun _ s => U.Fine s.below ∧ U.EndsWell s) E := by
  unfold Splice.remember
  split
  · refine Fares.change fun s hs => ⟨hs.1, ?_⟩
    rintro _ ⟨⟩
    exact hg
  · exact .pure _ fun s hs => hs

theorem reach {removed : List Glyph} (hr : ∀ r ∈ removed, U.Good r) (hg : g.Admitted U.Good) :
    Fares (fun s => U.Fine s.below ∧ U.EndsWell s)
      (do let h ← Splice.decorate removed g
          Splice.remember h
          return h)
      (fun h s => h.Admitted U.Good ∧ U.Fine s.below ∧ U.EndsWell s) fun e s =>
        U.Failed e s.below ∧ U.EndsWell s := by
  refine (U.decorate hr hg).bind fun h => .of_prop fun hh => ?_
  exact (U.remember hh).bind fun _ => .pure h fun s hs => ⟨hh, hs⟩

/-- **The upkeep of the stage for splices.** -/
def splice : Upkeep (Splice σ) where
  Good := U.Good
  Fine s := U.Fine s.below ∧ U.EndsWell s
  Failed e s := U.Failed e s.below ∧ U.EndsWell s
  closed := U.closed
  take := by
    change Fares _ Splice.take _ _
    refine (U.splice_onBelow U.spliceAll).bind fun (removed, g) => (Fares.view _).bind fun o => ?_
    rintro s ⟨ho, ⟨hr, hg, hs⟩, he⟩
    have first := U.reach hr hg s ⟨hs, he⟩
    cases hend : g.isEof with
    | false => exact first
    | true =>
      cases o with
      | none => exact first
      | some e => exact ⟨he e ho.symm, hs, he⟩
  giveBack hg := U.splice_onBelow (U.giveBack hg)

/-! ## Scanners -/

open Scanner

/-- The draft holds at least `n` glyphs, all good. -/
def Drafted (n : Nat) (d : Draft) : Prop := n ≤ d.size ∧ ∀ g ∈ d.newestFirst, U.Good g

/-- The source is fine, and so is the draft of at least `n` glyphs. -/
def Kept (n : Nat) (s : Scanner σ) : Prop := U.Fine s.source ∧ U.Drafted n s.draft

/-- What a failure leaves of the source of a scanner. -/
def Broken (e : Fault) (s : Scanner σ) : Prop := U.Failed e s.source

variable {U} in
theorem Kept.mono {m : Nat} {s : Scanner σ} (h : U.Kept n s) (hm : m ≤ n) : U.Kept m s :=
  ⟨h.1, Nat.le_trans hm h.2.1, h.2.2⟩

theorem onSource {m : ScanM σ α} {Q : α → σ → Prop} (h : Fares U.Fine m Q U.Failed) :
    Fares (U.Kept n) (Scanner.onSource m) (fun a s => Q a s.source ∧ U.Drafted n s.draft) U.Broken :=
  h.onState (fun _ hs => hs.1) (fun _ _ _ hs hq => ⟨hq, hs.2⟩) fun _ _ _ _ he => he

theorem next :
    Fares (U.Kept n) Scanner.next (fun g s => g.Admitted U.Good ∧ U.Kept n s) U.Broken :=
  (U.onSource U.take).post fun _ _ hs => ⟨hs.1.1, hs.1.2, hs.2⟩

theorem putBack (hg : g.Admitted U.Good) : Fares (U.Kept n) (putBack g) (fun _ => U.Kept n) U.Broken :=
  U.onSource (U.restore hg)

theorem keep (hg : U.Good g) : Fares (U.Kept n) (keep g) (fun _ => U.Kept (n + 1)) U.Broken := by
  refine Fares.change fun s hs => ⟨hs.1, Nat.succ_le_succ hs.2.1, fun h hh => ?_⟩
  rcases List.mem_cons.1 hh with rfl | hh
  · exact hg
  · exact hs.2.2 h hh

theorem undo : Fares (U.Kept (n + 1)) undo (fun _ => U.Kept n) U.Broken := by
  rintro ⟨⟨source, ⟨gs⟩⟩, log⟩ ⟨hs, hn, hgs⟩
  match gs, hn, hgs with
  | g :: gs, hn, hgs =>
    have hback := U.onSource (n := n) (U.giveBack (hgs g List.mem_cons_self))
    refine hback ⟨⟨source, ⟨gs⟩⟩, log⟩ ⟨hs, Nat.le_of_succ_le_succ hn, fun h hh => ?_⟩
    exact hgs h (List.mem_cons_of_mem g hh)

theorem undoMany (m : Nat) : Fares (U.Kept (n + m)) (undoMany m) (fun _ => U.Kept n) U.Broken := by
  induction m with
  | zero => exact .pure _ fun s hs => hs
  | succ m ih => exact U.undo.bind fun _ => ih

theorem accept (p : Char → Bool) :
    Fares (U.Kept n) (accept p) (fun b => U.Kept (n + b.toNat)) U.Broken := by
  refine U.next.bind fun g => .of_prop fun hg => ?_
  split
  · next hp =>
    obtain ⟨c, hc, -⟩ := (Option.any_eq_true p _).1 hp
    exact (U.keep (hg.of_value? hc)).bind fun _ => .pure _ fun s hs => hs
  · exact (U.putBack hg).bind fun _ => .pure _ fun s hs => hs

theorem acceptUpTo (p : Char → Bool) (m : Nat) :
    Fares (U.Kept n) (acceptUpTo p m) (fun k => U.Kept (n + k)) U.Broken := by
  induction m generalizing n with
  | zero => exact .pure _ fun s hs => hs
  | succ m ih =>
    refine (U.accept p).bind fun b => ?_
    split
    · next hb =>
      subst hb
      refine (ih (n := n + 1)).bind fun k => .pure _ fun s hs => hs.mono (by omega)
    · exact .pure _ fun s hs => hs.mono (Nat.le_add_right _ _)

/-- What does not shrink the draft, and how a turn of a loop goes on. -/
abbrev Keeps (n : Nat) (m : ScanM (Scanner σ) α) : Prop := Fares (U.Kept n) m (fun _ => U.Kept n) U.Broken

variable {U} in
theorem Keeps.loop {μ : Logged (Scanner σ) → Nat} {body : Unit → ScanM (Scanner σ) (Turn Unit Unit)}
    {paid : ∀ c, Draws μ (body c)} (h : U.Keeps n (body ())) : U.Keeps n (loop μ body paid ()) := by
  refine Fares.loop (I := fun _ => U.Kept n) (fun _ => h.post fun t s hs => ?_) ()
  cases t <;> exact hs

theorem acceptWhile (p : Char → Bool) : U.Keeps n (acceptWhile p) :=
  .loop (.map ((U.accept p).post fun _ _ hs => hs.mono (Nat.le_add_right _ _)))

theorem test (p : Char → Bool) : U.Keeps n (discard (Scanner.accept p)) :=
  .map ((U.accept p).post fun _ _ hs => hs.mono (Nat.le_add_right _ _))

theorem upTo (p : Char → Bool) (m : Nat) : U.Keeps n (discard (Scanner.acceptUpTo p m)) :=
  .map ((U.acceptUpTo p m).post fun _ _ hs => hs.mono (Nat.le_add_right _ _))

theorem stay (a : α) : U.Keeps n (pure a) := .pure a fun _ hs => hs

theorem hold (hg : U.Good g) : U.Keeps n (Scanner.keep g) :=
  (U.keep hg).post fun _ _ hs => hs.mono (Nat.le_succ n)

/-! ## Routines -/

theorem blockComment : U.Keeps n blockComment := by
  refine .loop (U.next.bind fun g => .of_prop fun hg => ?_)
  split
  · exact U.stay _
  · next he =>
    refine (U.hold (hg.good (by simpa using he))).bind fun _ => ?_
    split
    · refine (U.accept _).bind fun b => ?_
      split <;> exact .pure _ fun s hs => hs.mono (Nat.le_add_right _ _)
    · exact U.stay _

theorem headerName (closing : Char) : U.Keeps n (headerName closing) := by
  refine .loop (U.next.bind fun g => .of_prop fun hg => ?_)
  split
  · exact U.stay _
  · next c hc =>
    split
    · exact (U.putBack hg).bind fun _ => U.stay _
    · refine (U.hold (hg.of_value? hc)).bind fun _ => ?_
      split <;> exact U.stay _

theorem escape : U.Keeps n escape := by
  refine U.next.bind fun g => .of_prop fun hg => ?_
  split
  · exact U.stay _
  · next c hc =>
    split
    · exact U.putBack hg
    · refine (U.hold (hg.of_value? hc)).bind fun _ => ?_
      split_ifs
      · exact U.upTo _ _
      · exact U.acceptWhile _
      · exact U.upTo _ _
      · exact U.upTo _ _
      · exact U.stay _

theorem literal (quote : Char) : U.Keeps n (literal quote) := by
  refine .loop (U.next.bind fun g => .of_prop fun hg => ?_)
  split
  · exact U.stay _
  · next c hc =>
    split
    · exact (U.putBack hg).bind fun _ => U.stay _
    · refine (U.hold (hg.of_value? hc)).bind fun _ => ?_
      split
      · exact U.stay _
      · split
        · exact U.escape.bind fun _ => U.stay _
        · exact U.stay _

theorem universalDigits (m : Nat) :
    Fares (U.Kept (n + 1)) (universalDigits m) (fun _ => U.Kept n) U.Broken := by
  refine (U.acceptUpTo isHex m).bind fun k => ?_
  split
  · exact .pure _ fun s hs => hs.mono (by omega)
  · have hv : U.Keeps (n + (k + 1)) (Scanner.onSource (ScanM.view Source.location)) := fun s hs => hs
    refine (hv.pre fun s hs => hs.mono (by omega)).bind fun _ => (Fares.emit _).bind fun _ => ?_
    exact (U.undoMany (k + 1)).bind fun _ => U.stay _

theorem universalTail : U.Keeps n universalTail := by
  refine U.next.bind fun g => .of_prop fun hg => ?_
  split_ifs with hu hu'
  · exact (U.keep (hg.of_is hu)).bind fun _ => U.universalDigits 4
  · exact (U.keep (hg.of_is hu')).bind fun _ => U.universalDigits 8
  · exact (U.putBack hg).bind fun _ => U.stay _

theorem identifier [Alphabet] : U.Keeps n Scanner.identifier := by
  refine .loop (U.next.bind fun g => .of_prop fun hg => ?_)
  split
  · exact U.stay _
  · next c hc =>
    split
    · exact (U.hold (hg.of_value? hc)).bind fun _ => U.stay _
    · split
      · refine (U.keep (hg.of_value? hc)).bind fun _ => U.universalTail.bind fun b => ?_
        split
        · exact .pure _ fun s hs => hs.mono (Nat.le_succ n)
        · exact U.undo.bind fun _ => U.stay _
      · exact (U.putBack hg).bind fun _ => U.stay _

theorem number [Alphabet] : U.Keeps n Scanner.number := by
  refine .loop ((Fares.view _).bind fun signed => (U.next.pre fun s hs => hs.2).bind fun g =>
    .of_prop fun hg => ?_)
  split
  · exact U.stay _
  · next c hc =>
    split
    · exact (U.hold (hg.of_value? hc)).bind fun _ => U.stay _
    · exact (U.putBack hg).bind fun _ => U.stay _

/-! ## Digraphs -/

theorem pair (d : Digraph) {g h : Glyph} (hg : U.Good g) (hh : U.Good h) :
    Glyph.merge d.primary [g, h] = .ok (.merged d.primary [g, h]) ∧ U.Good (.merged d.primary [g, h]) := by
  have hall : ∀ k ∈ [g, h], U.Good k := by
    simpa using ⟨hg, hh⟩
  exact ⟨Glyph.merge_eq _ (by simp) fun k hk => U.closed.placed (hall k hk),
    U.closed.merged (by simp) hall (.inl d.primary_mem)⟩

theorem collapse (d : Digraph) :
    Fares (U.Kept 2) (revise (·.collapse d.primary)) (fun _ => U.Kept 1) U.Broken := by
  rintro ⟨⟨source, ⟨gs⟩⟩, log⟩ ⟨hs, hn, hgs⟩
  match gs, hn, hgs with
  | h :: g :: gs, hn, hgs =>
    obtain ⟨hm, hgood⟩ := U.pair d (hgs g (by simp)) (hgs h (by simp))
    simp only [revise, Draft.collapse, hm]
    refine ⟨hs, Nat.succ_le_succ (Nat.zero_le _), fun k hk => ?_⟩
    rcases List.mem_cons.1 hk with rfl | hk
    · exact hgood
    · exact hgs k (by simp [hk])

theorem collapseTwo (d e : Digraph) :
    Fares (U.Kept 4) (revise (·.collapseTwo d.primary e.primary)) (fun _ => U.Kept 1) U.Broken := by
  rintro ⟨⟨source, ⟨gs⟩⟩, log⟩ ⟨hs, hn, hgs⟩
  match gs, hn, hgs with
  | k :: j :: h :: g :: gs, hn, hgs =>
    obtain ⟨hm, hgood⟩ := U.pair d (hgs g (by simp)) (hgs h (by simp))
    obtain ⟨hm', hgood'⟩ := U.pair e (hgs j (by simp)) (hgs k (by simp))
    simp only [revise, Draft.collapseTwo, hm, hm']
    refine ⟨hs, Nat.succ_le_succ (Nat.zero_le _), fun x hx => ?_⟩
    rcases List.mem_cons.1 hx with rfl | hx
    · exact hgood'
    · rcases List.mem_cons.1 hx with rfl | hx
      · exact hgood
      · exact hgs x (by simp [hx])

theorem sharpDigraph : Fares (U.Kept 2) Scanner.sharpDigraph (fun _ => U.Kept 1) U.Broken := by
  refine U.next.bind fun percent => .of_prop fun hp => ?_
  split
  · next hp' =>
    refine U.next.bind fun colon => .of_prop fun hc => ?_
    split
    · next hc' =>
      refine (U.keep (hp.of_is hp')).bind fun _ => (U.keep (hc.of_is hc')).bind fun _ => ?_
      exact U.collapseTwo .doubleSharp .doubleSharp
    · exact (U.putBack hc).bind fun _ => (U.putBack hp).bind fun _ => U.collapse .sharp
  · exact (U.collapse .sharp).bind fun _ => U.putBack hp

/-! ## Following a table -/

/-- Something that leaves a draft that is not empty. -/
abbrev Drafts (n : Nat) (m : ScanM (Scanner σ) α) : Prop := Fares (U.Kept n) m (fun _ => U.Kept 1) U.Broken

theorem routine [Alphabet] {r : Routine} {inert : Bool} (hr : r.fits (n + 1) inert = true) :
    U.Drafts (n + 1) r.run := by
  have one {m : ScanM (Scanner σ) Unit} {k : TokenKind} (hm : U.Keeps (n + 1) m) :
      U.Drafts (n + 1) (do m; return k) :=
    hm.bind fun _ => .pure _ fun s hs => hs.mono (Nat.le_add_left 1 n)
  cases r with
  | blanks => exact one (U.acceptWhile _)
  | directiveBlanks => exact one (U.acceptWhile _)
  | blockComment => exact one U.blockComment
  | lineComment => exact one (U.acceptWhile _)
  | literal quote kind => exact one (U.literal quote)
  | headerName closing kind => exact one (U.headerName closing)
  | identifier => exact one U.identifier
  | universalName digits =>
    have hn : inert = true ∧ 1 ≤ n := by simpa [Routine.fits] using hr
    refine ((U.universalDigits digits).post fun _ s hs => hs.mono hn.2).bind fun b => ?_
    split
    · exact U.identifier.bind fun _ => U.stay _
    · exact U.stay _
  | number => exact one U.number
  | ellipsis =>
    have hn : inert = true ∧ 1 ≤ n := by simpa [Routine.fits] using hr
    refine (U.accept _).bind fun b => ?_
    split
    · exact .pure _ fun s hs => hs.mono (by omega)
    · exact (U.undo.pre fun s hs => hs.mono (by omega)).bind fun _ => U.stay _
  | digraph d =>
    have hn : 2 ≤ n + 1 := by simpa [Routine.fits] using hr
    exact ((U.collapse d).pre fun s hs => hs.mono hn).bind fun _ => U.stay _
  | sharpDigraph kind =>
    have hn : 2 ≤ n + 1 ∧ kind.isName = false := by simpa [Routine.fits] using hr
    exact (U.sharpDigraph.pre fun s hs => hs.mono hn.1).bind fun _ => U.stay _
  | shift c =>
    refine (U.test _).bind fun _ => (U.test _).bind fun _ => ?_
    exact .pure _ fun s hs => hs.mono (Nat.le_add_left 1 n)

theorem rule [Alphabet] {r : Rule} {inert : Bool} (hr : r.fits (n + 1) inert = true) : U.Drafts (n + 1) r.run := by
  cases r with
  | fixed kind => exact .pure _ fun s hs => hs.mono (Nat.le_add_left 1 n)
  | routine r => exact U.routine hr

mutual

theorem action [Alphabet] : (action : Action) → (n : Nat) → (inert : Bool) → action.fits (n + 1) inert = true →
    U.Drafts (n + 1) action.run
  | .finish r, n, inert, h => by
    rw [Action.fits] at h
    exact U.rule h
  | .nested cases otherwise, n, inert, h => by
    rw [Action.fits, Bool.and_eq_true] at h
    exact U.next.bind fun g => .of_prop fun hg => choose cases otherwise n inert h.2 h.1 g hg

theorem choose [Alphabet] : (cases : List Case) → (otherwise : Rule) → (n : Nat) → (inert : Bool) →
    Case.allFit (n + 2) cases = true → otherwise.fits (n + 1) inert = true → (g : Glyph) →
    g.Admitted U.Good → U.Drafts (n + 1) (Case.choose cases otherwise g)
  | [], otherwise, n, inert, _, ho, g, hg => by
    unfold Case.choose
    exact (U.putBack hg).bind fun _ => U.rule ho
  | ⟨chars, act⟩ :: cases, otherwise, n, inert, hc, ho, g, hg => by
    rw [Case.allFit, Bool.and_eq_true] at hc
    unfold Case.choose
    split
    · next hchars =>
      obtain ⟨c, hv, -⟩ := (Option.any_eq_true _ _).1 hchars
      exact (U.keep (hg.of_value? hv)).bind fun _ => action act (n + 1) chars.isInert hc.1
    · exact choose cases otherwise n inert hc.2 ho g hg

end

theorem readRest [Alphabet] {table : Table} (hf : table.fits = true) (lead : Char) :
    U.Drafts 1 (readRest table lead) := by
  unfold Scanner.readRest
  split
  · next act ha => exact U.action act 0 false (Table.fits_of_lookup hf ha)
  · split
    · have hr : Routine.identifier.fits 1 false = true := rfl
      exact U.routine hr
    · exact U.stay _

/-! ## Tokens -/

/-- The token is made of good glyphs. -/
def Made (t : Token) : Prop := t.glyphs ≠ [] ∧ ∀ g ∈ t.glyphs, U.Good g

/-- Nothing has been read of the next token, and the source is fine. -/
def Ready (s : Scanner σ) : Prop := s.draft = .empty ∧ U.Fine s.source

theorem finish (k : TokenKind) :
    Fares (U.Kept 1) (finish k) (fun t s => (U.Made t ∧ t.children = []) ∧ U.Ready s) U.Broken := by
  rintro ⟨⟨source, d⟩, log⟩ ⟨hs, hn, hgs⟩
  have hgood : ∀ g ∈ d.glyphs, U.Good g := fun g hg => hgs g (List.mem_reverse.1 hg)
  have hne : d.glyphs ≠ [] := List.reverse_ne_nil_iff.2 (List.ne_nil_of_length_pos hn)
  unfold Scanner.finish
  simp only [Draft.toToken_of_placed k hne fun g hg => U.closed.placed (hgood g hg)]
  exact ⟨⟨⟨hne, hgood⟩, rfl⟩, rfl, hs⟩

/-- **A token is made of good glyphs**, and nothing but the source can fail. -/
theorem readToken [Alphabet] {table : Table} (hf : table.fits = true) :
    Fares U.Ready (readToken table) (fun o s => (∀ t ∈ o, U.Made t ∧ t.children = []) ∧ U.Ready s)
      U.Broken := by
  have hnext : Fares U.Ready Scanner.next (fun g s => g.Admitted U.Good ∧ U.Ready s) U.Broken := by
    unfold Scanner.next Scanner.onSource
    refine U.take.onState ?_ ?_ ?_
    · exact fun s hs => hs.2
    · exact fun s g t hs ht => ⟨ht.1, hs.1, ht.2⟩
    · exact fun s e t _ he => he
  refine hnext.bind fun g => .of_prop fun hg => ?_
  split
  · exact .pure _ fun s hs => ⟨nofun, hs⟩
  · next lead hl =>
    have hkeep : Fares U.Ready (Scanner.keep g) (fun _ => U.Kept 1) U.Broken := by
      refine (U.keep (n := 0) (hg.of_value? hl)).pre fun s hs => ⟨hs.2, Nat.zero_le _, ?_⟩
      rw [hs.1]
      exact nofun
    refine hkeep.bind fun _ => (U.readRest hf lead).bind fun k => (U.finish k).bind fun t => ?_
    refine .pure _ fun s hs => ⟨?_, hs.2⟩
    rintro _ ⟨⟩
    exact hs.1

theorem readAll [Alphabet] {table : Table} (hf : table.fits = true) :
    Fares U.Ready (Scanner.readAll table) (fun _ => U.Ready) U.Broken :=
  .map (.gather (.map ((U.readToken hf).post fun _ _ hs => hs.2)))

/-! ## Directives -/

/-- The tokens of the line are made of good glyphs, and none of them has children. -/
def LineKept (l : DirectiveLine σ) : Prop :=
  U.Ready l.scanner ∧ ∀ t ∈ l.newestFirst, U.Made t ∧ t.children = []

/-- What a failure leaves of the source of a line. -/
def LineBroken (e : Fault) (l : DirectiveLine σ) : Prop := U.Failed e l.scanner.source

theorem lineTurn [Alphabet] (reserved : List String) (place : LinePlace) :
    Fares U.LineKept (DirectiveLine.lineTurn reserved place) (fun _ => U.LineKept) U.LineBroken := by
  have hreserve : Fares U.Ready (Option.map (Token.reserve reserved) <$> Scanner.readToken place.table)
      (fun o s => (∀ t ∈ o, U.Made t ∧ t.children = []) ∧ U.Ready s) U.Broken := by
    refine Fares.map ((U.readToken place.fits).post ?_)
    rintro o s ⟨ho, hs⟩
    refine ⟨fun t ht => ?_, hs⟩
    obtain ⟨u, hu, rfl⟩ := Option.map_eq_some_iff.1 ht
    obtain ⟨hm, hc⟩ := ho u hu
    refine ⟨?_, (Token.children_reserve _ u).trans hc⟩
    rw [Made, Token.glyphs_reserve]
    exact hm
  have hread : Fares U.LineKept (DirectiveLine.readToken reserved place.table)
      (fun o l => (∀ t ∈ o, U.Made t ∧ t.children = []) ∧ U.LineKept l) U.LineBroken :=
    hreserve.onState (fun _ hl => hl.1) (fun _ _ _ hl hs => ⟨hs.1, hs.2, hl.2⟩) fun _ _ _ _ he => he
  refine hread.bind fun o => .of_prop fun ho => ?_
  cases o with
  | none => exact (Fares.emit _).bind fun _ => .pure _ fun _ hl => hl
  | some t =>
    obtain ⟨hm, hc⟩ := ho t rfl
    have hnote : Fares U.LineKept (DirectiveLine.noteAll (place.note? t)) (fun _ => U.LineKept)
        U.LineBroken := by
      cases place.note? t with
      | none => exact .pure _ fun _ hl => hl
      | some e => exact Fares.emit e
    have hpush : Fares U.LineKept (DirectiveLine.push (place.mark t)) (fun _ => U.LineKept)
        U.LineBroken := by
      refine Fares.change fun l hl => ⟨hl.1, fun u hu => ?_⟩
      rcases List.mem_cons.1 hu with rfl | hu
      · refine ⟨?_, (LinePlace.children_mark place t).trans hc⟩
        rw [Made, LinePlace.glyphs_mark]
        exact hm
      · exact hl.2 u hu
    exact hnote.bind fun _ => hpush.bind fun _ => .pure _ fun _ hl => hl

theorem readFrom [Alphabet] (reserved : List String) (place : LinePlace) :
    Fares U.LineKept (DirectiveLine.readFrom reserved place) (fun _ => U.LineKept) U.LineBroken := by
  refine Fares.loop (I := fun _ => U.LineKept) (fun place => (U.lineTurn reserved place).post ?_) place
  rintro (_ | _) l hl <;> exact hl

theorem readDirective [Alphabet] (reserved : List String) :
    Fares U.Ready (Scanner.readDirective reserved)
      (fun cs s => (∀ c ∈ cs, U.Made c ∧ c.children = []) ∧ U.Fine s.source) U.Broken := by
  unfold Scanner.readDirective
  rw [DirectiveLine.readDirective_eq_loop]
  refine Fares.onState ((U.readFrom reserved .name).bind fun _ => (Fares.view DirectiveLine.children)) ?_ ?_ ?_
  · exact fun s hs => ⟨hs, nofun⟩
  · rintro s cs l - ⟨rfl, hl⟩
    exact ⟨fun c hc => hl.2 c (List.mem_reverse.1 hc), hl.1.2⟩
  · exact fun _ _ _ _ he => he

/-! ## Lexers -/

/-- The token and its children are made of good glyphs, and there are no other descendants. -/
def Whole (t : Token) : Prop := U.Made t ∧ ∀ c ∈ t.children, U.Made c ∧ c.children = []

/-- What a failure leaves of the source of a lexer. -/
def Stopped (e : Fault) (l : Lexer σ) : Prop := U.Failed e l.source

theorem withScanner {m : ScanM (Scanner σ) α} {q : α → Prop}
    (h : Fares U.Ready m (fun a s => q a ∧ U.Fine s.source) U.Broken) :
    Fares (fun l : Lexer σ => U.Fine l.source) (Lexer.withScanner m)
      (fun a l => q a ∧ U.Fine l.source) U.Stopped :=
  h.onState (fun _ hl => ⟨rfl, hl⟩) (fun _ _ _ _ hs => hs) fun _ _ _ _ he => he

theorem classify [Alphabet] {t : Token} (ht : U.Made t) (hc : t.children = []) :
    Fares (fun l : Lexer σ => U.Fine l.source) (Lexer.classify t)
      (fun u l => U.Whole u ∧ U.Fine l.source) U.Stopped := by
  have hstart (b : Bool) : Fares (fun l : Lexer σ => U.Fine l.source) (Lexer.setLineStart b)
      (fun _ l => U.Fine l.source) U.Stopped := Fares.change fun _ hl => hl
  have hwhole : U.Whole t := ⟨ht, by rw [hc]; exact nofun⟩
  unfold Lexer.classify
  split
  · split
    · exact (hstart true).bind fun _ => .pure _ fun _ hl => ⟨hwhole, hl⟩
    · exact .pure _ fun _ hl => ⟨hwhole, hl⟩
  · refine (Fares.view _).bind fun b => ?_
    split
    · refine (Fares.view _).bind fun reserved => ?_
      refine ((U.withScanner (U.readDirective reserved)).pre fun _ hl => hl.2.2).bind fun cs => ?_
      exact .pure _ fun _ hl => ⟨⟨ht, hl.1⟩, hl.2⟩
    · refine ((hstart false).pre fun _ hl => hl.2).bind fun _ => (Fares.view _).bind fun reserved => ?_
      refine .pure _ fun _ hl => ⟨⟨?_, ?_⟩, hl.2⟩
      · rw [Made, Token.glyphs_reserve]
        exact ht
      · rw [Token.children_reserve, hc]
        exact nofun

/-- **A lexer keeps up what its source keeps up**, and fails only as its source does. -/
theorem nextToken [Alphabet] :
    Fares (fun l : Lexer σ => U.Fine l.source) Lexer.nextToken
      (fun o l => (∀ t ∈ o, U.Whole t) ∧ U.Fine l.source) U.Stopped := by
  have hread := U.withScanner ((U.readToken Table.fits_text).post fun _ _ hs => ⟨hs.1, hs.2.2⟩)
  refine hread.bind fun o => .of_prop fun ho => ?_
  cases o with
  | none => exact .pure _ fun _ hl => ⟨nofun, hl⟩
  | some t =>
    obtain ⟨hm, hc⟩ := ho t rfl
    refine (U.classify hm hc).bind fun u => .pure _ fun _ hl => ⟨?_, hl.2⟩
    rintro _ ⟨⟩
    exact hl.1

theorem eof? :
    Fares (fun l : Lexer σ => U.Fine l.source) Lexer.eof?
      (fun o l => (∀ e ∈ o, e.isEof = true ∧ e.Admitted U.Good) ∧ U.Fine l.source) U.Stopped := by
  have hprobe : Fares U.Fine
      (do let g ← Source.take
          if g.isEof then return some g
          else
            Source.giveBack g
            return none : ScanM σ (Option Glyph))
      (fun o s => (∀ e ∈ o, e.isEof = true ∧ e.Admitted U.Good) ∧ U.Fine s) U.Failed := by
    refine U.take.bind fun g => .of_prop fun hg => ?_
    split
    · next he =>
      refine .pure _ fun _ hs => ⟨?_, hs⟩
      rintro _ ⟨⟩
      exact ⟨he, hg⟩
    · next he =>
      exact (U.giveBack (hg.good (by simpa using he))).bind fun _ => .pure _ fun _ hs => ⟨nofun, hs⟩
  unfold Lexer.eof? Lexer.onSource
  refine hprobe.onState ?_ ?_ ?_
  · exact fun _ hl => hl
  · exact fun _ _ _ _ hs => hs
  · exact fun _ _ _ _ he => he

end Upkeep

end Pretoken
