import Pretoken.Proofs.Coupling
import Pretoken.Proofs.Replaying

/-!
# Glyphs in custody

A scanner has custody of the glyphs that it has taken from its source and not given back. They are given back in the
reverse order, so what it has is at all times a stretch of the text; in the end that is what the token covers. This
is so for every table over sources to which anything can be given back. Other sources take back only what was taken
last, and what makes no difference to them; a table that fits asks for no more.

* `Ensures`: what comes of a computation if it returns, the log included.
* `Custody`: what a source says about the glyphs that were taken from it.
* `Custody.Kept`, `Custody.Settled`: the draft is what the scanner has, or covers it.
* `Custody.accept`, `Custody.identifier`, `Custody.sharpDigraph` and others: one lemma for each routine.
* **`Custody.readToken`**: a token covers what was taken for it.
-/

namespace Pretoken

variable {ε σ α β γ : Type}

/-! ## Partial correctness -/

/-- If the computation `m` returns from a state with `P`, then `Q` holds of the result and the state that it leaves. -/
def Ensures (P : σ → Prop) (m : EStateM ε σ α) (Q : α → σ → Prop) : Prop :=
  ∀ s, P s → ∀ a s', m s = .ok a s' → Q a s'

namespace Ensures

variable {P P' : σ → Prop} {m : EStateM ε σ α} {Q Q' : α → σ → Prop} {f : α → EStateM ε σ β} {R : β → σ → Prop}

theorem pure (a : α) (h : ∀ s, P s → Q a s) : Ensures P (pure a : EStateM ε σ α) Q := by
  rintro s hs b s' ⟨⟩
  exact h s hs

theorem throw (e : ε) : Ensures P (throw e : EStateM ε σ α) Q := by
  rintro s - a s' ⟨⟩

theorem bind (hm : Ensures P m Q) (hf : ∀ a, Ensures (Q a) (f a) R) : Ensures P (m >>= f) R := by
  intro s hs b s' h
  change EStateM.bind m f s = _ at h
  unfold EStateM.bind at h
  split at h
  · next a t ht => exact hf a t (hm s hs a t ht) b s' h
  · cases h

theorem map {g : α → β} (hm : Ensures P m fun a s => R (g a) s) : Ensures P (g <$> m) R := by
  intro s hs b s' h
  change EStateM.map g m s = _ at h
  unfold EStateM.map at h
  split at h
  · next ht =>
    cases h
    exact hm s hs _ _ ht
  · cases h

theorem pre (hm : Ensures P m Q) (hp : ∀ s, P' s → P s) : Ensures P' m Q :=
  fun s hs => hm s (hp s hs)

theorem post (hm : Ensures P m Q) (hq : ∀ a s, Q a s → Q' a s) : Ensures P m Q' :=
  fun s hs a s' h => hq a s' (hm s hs a s' h)

/-- A fact that does not concern the state may be used to choose the proof. -/
theorem of_prop {p : Prop} (h : p → Ensures P m Q) : Ensures (fun s => p ∧ P s) m Q :=
  fun s hs => h hs.1 s hs.2

theorem of_exists {ι : Type} {P : ι → σ → Prop} (h : ∀ i, Ensures (P i) m Q) : Ensures (fun s => ∃ i, P i s) m Q :=
  fun s ⟨i, hs⟩ => h i s hs

/-- **An invariant of every turn is an invariant of the loop.** -/
theorem loop {μ : σ → Nat} {body : γ → EStateM ε σ (Turn γ α)} {paid : ∀ c, Draws μ (body c)} {I : γ → σ → Prop}
    (h : ∀ c, Ensures (I c) (body c) (Turn.Post I Q)) (c : γ) : Ensures (I c) (loop μ body paid c) Q := by
  intro s hs a s' hl
  induction c, s using loop_induct paid with
  | step c s ih =>
    rw [loop_eq] at hl
    match hb : body c s, hl with
    | .ok (.again c') t, hl => exact ih c' t hb (h c s hs _ t hb) hl
    | .ok (.done b) t, rfl => exact h c s hs _ t hb

/-- An invariant about the items so far that every draw keeps. -/
theorem gatherUntil {μ : σ → Nat} {m : EStateM ε σ (Turn α β)} {h : Draws μ m}
    {I : List α → σ → Prop} {Q : List α → β → σ → Prop}
    (hI : ∀ as, Ensures (I as) m (Turn.Post (fun a => I (as ++ [a])) (Q as))) :
    Ensures (I []) (gatherUntil μ m h) fun r s => ∀ b, r.2 = .ok b → Q r.1 b s := by
  refine loop (I := fun seen => I seen.reverse) (fun seen s hs x s' hx => ?_) []
  match hm : m s with
  | .ok (.again a) t =>
    rw [gatherTurn_again hm] at hx
    cases hx
    simpa [Turn.Post] using hI seen.reverse s hs _ _ hm
  | .ok (.done b) t =>
    rw [gatherTurn_done hm] at hx
    cases hx
    rintro b ⟨⟩
    exact hI seen.reverse s hs _ _ hm
  | .error e t =>
    rw [gatherTurn_error hm] at hx
    cases hx
    rintro b ⟨⟩

section Scans

variable {τ : Type} {P : Logged σ → Prop}

theorem view (f : σ → α) : Ensures P (ScanM.view f) fun _ => P := by
  rintro s hs _ _ ⟨⟩
  exact hs

theorem view_eq (f : σ → α) : Ensures P (ScanM.view f) fun a s => a = f s.state ∧ P s := by
  rintro s hs _ _ ⟨⟩
  exact ⟨rfl, hs⟩

theorem require {r : Except Violation α} {Q : α → Logged σ → Prop} (h : ∀ a s, r = .ok a → P s → Q a s) :
    Ensures P (ScanM.require r) Q := by
  rintro s hs a s' hr
  match r, hr with
  | .ok _, rfl => exact h _ _ rfl hs

/-- A scan of a component of the state, with the log shared. -/
theorem onState {R : Logged τ → Prop} {m : ScanM τ α} {S : α → Logged τ → Prop} (hm : Ensures R m S) {view : σ → τ}
    {put : τ → σ → σ} {Q : α → Logged σ → Prop} (hpre : ∀ s, P s → R ⟨view s.state, s.log⟩)
    (hpost : ∀ a s t, P s → S a t → Q a ⟨put t.state s.state, t.log⟩) : Ensures P (ScanM.onState view put m) Q := by
  intro s hs a s' h
  unfold ScanM.onState onPart at h
  split at h
  · next ht =>
    cases h
    exact hpost _ s _ hs (hm _ (hpre s hs) _ _ ht)
  · cases h

end Scans

end Ensures

/-! ## Sources -/

/-- What a source says about the glyphs that were taken from it and not given back, of which the one taken last comes
first. -/
structure Custody (σ : Type) [Source σ] where
  /-- The glyphs `gs` were taken. -/
  Holds : List Glyph → Logged σ → Prop
  /-- The glyphs `gs` were taken, and nothing is left but the end, which came last. -/
  Ended : List Glyph → Logged σ → Prop
  /-- The glyph `g` was taken after the glyphs `gs`, and can be given back. -/
  Fresh : Glyph → List Glyph → Logged σ → Prop
  /-- The glyph can be given back at any time. -/
  Free : Glyph → Prop
  holds_of_ended : ∀ {gs s}, Ended gs s → Holds gs s
  holds_of_fresh : ∀ {g gs s}, Fresh g gs s → Holds (g :: gs) s
  fresh_of_free : ∀ {g gs s}, Free g → Holds (g :: gs) s → Fresh g gs s
  free_of_inert : ∀ {g}, Coupling.Inert g → Free g
  free_of_backslash : ∀ {g}, g.is '\\' = true → Free g
  take : ∀ gs, Ensures (Holds gs) Source.take fun g s =>
    (g.isEof = true ∧ Ended gs s) ∨ (g.isEof = false ∧ Fresh g gs s)
  giveBack : ∀ g gs, Ensures (Fresh g gs) (Source.giveBack g) fun _ => Holds gs
  incompleteName : ∀ {gs} {l : Location} {s : Logged σ}, Holds gs s →
    Holds gs { s with log := .incompleteName l :: s.log }

namespace Custody

variable {σ : Type} [Source σ] (C : Custody σ)

open Scanner

/-- The scanner has the draft `d`, the last glyph first, and `R` holds of its source and the log. -/
def At (R : Logged σ → Prop) (d : List Glyph) (s : Logged (Scanner σ)) : Prop :=
  s.state.draft.newestFirst = d ∧ R ⟨s.state.source, s.log⟩

/-- What was taken is the draft. -/
def Kept (s : Logged (Scanner σ)) : Prop := At (C.Holds s.state.draft.newestFirst) s.state.draft.newestFirst s

/-- The glyph `g` was looked at after the glyphs `gs` were taken: it is the end, or it was taken as well. -/
def Taken (g : Glyph) (gs : List Glyph) (s : Logged σ) : Prop :=
  (g.isEof = true ∧ C.Ended gs s) ∨ (g.isEof = false ∧ C.Fresh g gs s)

/-- What is in the draft covers what was taken. -/
def Settled (s : Logged (Scanner σ)) : Prop := ∃ d gs, Covers d.reverse gs.reverse ∧ At (C.Holds gs) d s

variable {C} {g : Glyph} {d gs : List Glyph} {R : Logged σ → Prop}

theorem Taken.holds {s : Logged σ} (h : C.Taken g gs s) : C.Holds (if g.isEof then gs else g :: gs) s := by
  rcases h with ⟨hg, hs⟩ | ⟨hg, hs⟩
  · rw [if_pos hg]
    exact C.holds_of_ended hs
  · rw [hg, if_neg (by decide)]
    exact C.holds_of_fresh hs

theorem Taken.fresh {s : Logged σ} (h : C.Taken g gs s) {c : Char} (hc : g.value? = some c) : C.Fresh g gs s := by
  rcases h with ⟨hg, -⟩ | ⟨-, hs⟩
  · rw [Glyph.isEof_eq_false_of_value? hc] at hg
    cases hg
  · exact hs

omit [Source σ] in
theorem At.mono {R' : Logged σ → Prop} {s : Logged (Scanner σ)} (hs : At R d s) (hR : ∀ t, R t → R' t) : At R' d s :=
  ⟨hs.1, hR _ hs.2⟩

theorem At.kept {s : Logged (Scanner σ)} (hs : At (C.Holds d) d s) : C.Kept s := by
  obtain ⟨rfl, h⟩ := hs
  exact ⟨rfl, h⟩

theorem Kept.settled {s : Logged (Scanner σ)} (hs : C.Kept s) : C.Settled s :=
  ⟨_, _, .refl _, hs⟩

theorem of_at {m : ScanM (Scanner σ) α} {Q : α → Logged (Scanner σ) → Prop}
    (h : ∀ d, Ensures (At (C.Holds d) d) m Q) : Ensures C.Kept m Q :=
  fun s hs => h _ s hs

/-! ## Moves -/

omit [Source σ] in
theorem onSource_ensures {P : Logged σ → Prop} {m : ScanM σ α} {Q : α → Logged σ → Prop} (hm : Ensures P m Q) :
    Ensures (At P d) (onSource m) fun a => At (Q a) d :=
  hm.onState (fun _ hs => hs.2) fun _ _ _ hs hq => ⟨hs.1, hq⟩

variable (C gs d) in
theorem next : Ensures (At (C.Holds gs) d) Scanner.next fun g => At (C.Taken g gs) d :=
  onSource_ensures (C.take gs)

omit [Source σ] in
theorem keep_any : Ensures (At R d) (Scanner.keep g) fun _ => At R (g :: d) := by
  rintro s ⟨rfl, hs⟩ _ _ ⟨⟩
  exact ⟨rfl, hs⟩

/-- What was looked at is taken into the draft. -/
theorem keep {c : Char} (hc : g.value? = some c) :
    Ensures (At (C.Taken g d) d) (Scanner.keep g) fun _ => At (C.Holds (g :: d)) (g :: d) :=
  keep_any.post fun _ _ hs => hs.mono fun _ ht => C.holds_of_fresh (ht.fresh hc)

theorem keep_kept {c : Char} (hc : g.value? = some c) : Ensures (At (C.Taken g d) d) (Scanner.keep g) fun _ => C.Kept :=
  (keep hc).post fun _ _ hs => hs.kept

/-- What was looked at is given back. -/
theorem putBack : Ensures (At (C.Taken g gs) d) (Scanner.putBack g) fun _ => At (C.Holds gs) d := by
  unfold Scanner.putBack Source.restore
  rintro s ⟨hd, ⟨hg, hs⟩ | ⟨hg, hs⟩⟩
  · rw [if_pos hg]
    rintro _ _ ⟨⟩
    exact ⟨hd, C.holds_of_ended hs⟩
  · rw [hg, if_neg (by decide)]
    exact onSource_ensures (C.giveBack g gs) s ⟨hd, hs⟩

theorem putBack_kept : Ensures (At (C.Taken g d) d) (Scanner.putBack g) fun _ => C.Kept :=
  putBack.post fun _ _ hs => hs.kept

/-- A glyph can be given back after others if nothing depends on it. -/
theorem putBack_free (hg : C.Free g) {c : Char} (hc : g.value? = some c) :
    Ensures (At (C.Holds (g :: gs)) d) (Scanner.putBack g) fun _ => At (C.Holds gs) d :=
  putBack.pre fun _ hs => hs.mono fun _ ht => .inr ⟨Glyph.isEof_eq_false_of_value? hc, C.fresh_of_free hg ht⟩

/-- The last glyph of the draft is given back, if there is one. -/
theorem undo (hd : ∀ g ∈ d.head?, C.Free g) :
    Ensures (At (C.Holds d) d) Scanner.undo fun _ => At (C.Holds d.tail) d.tail := by
  rintro ⟨⟨source, ⟨d'⟩⟩, log⟩ ⟨rfl, hs⟩
  match d', hd, hs with
  | [], _, hs =>
    rintro _ _ ⟨⟩
    exact ⟨rfl, hs⟩
  | g :: d', hd, hs =>
    exact onSource_ensures (C.giveBack g d') ⟨⟨source, ⟨d'⟩⟩, log⟩ ⟨rfl, C.fresh_of_free (hd g rfl) hs⟩

/-- The last glyphs of the draft are given back, as many as there are. -/
theorem undoMany (n : Nat) (hd : ∀ g ∈ d.take n, C.Free g) :
    Ensures (At (C.Holds d) d) (Scanner.undoMany n) fun _ => At (C.Holds (d.drop n)) (d.drop n) := by
  induction n generalizing d with
  | zero => exact .pure _ fun s hs => hs
  | succ n ih =>
    cases d with
    | nil =>
      refine (undo (d := []) (by simp)).bind fun _ => (ih (d := []) (by simp)).post fun _ _ hs => ?_
      rwa [List.drop_nil] at hs ⊢
    | cons g d =>
      rw [List.take_succ_cons, List.forall_mem_cons] at hd
      exact (undo (d := g :: d) (by simpa using hd.1)).bind fun _ => ih hd.2

/-! ## Classes of characters -/

theorem accept (p : Char → Bool) : Ensures (At (C.Holds d) d) (Scanner.accept p) fun b s =>
    (b = false ∧ At (C.Holds d) d s) ∨ (b = true ∧ ∃ g, g.value?.any p = true ∧ At (C.Holds (g :: d)) (g :: d) s) := by
  refine (C.next d d).bind fun g => ?_
  split
  · next hp =>
    obtain ⟨c, hc, -⟩ := (Option.any_eq_true p _).1 hp
    exact (keep hc).bind fun _ => .pure _ fun s hs => .inr ⟨rfl, g, hp, hs⟩
  · exact putBack.bind fun _ => .pure _ fun s hs => .inl ⟨rfl, hs⟩

theorem accept_kept (p : Char → Bool) : Ensures C.Kept (Scanner.accept p) fun _ => C.Kept := by
  refine of_at fun d => (accept p).post ?_
  rintro b s (⟨-, hs⟩ | ⟨-, g, -, hs⟩) <;> exact hs.kept

theorem acceptUpTo (p : Char → Bool) (n : Nat) : Ensures (At (C.Holds d) d) (Scanner.acceptUpTo p n) fun k s =>
    ∃ top : List Glyph, (top.length = k ∧ ∀ g ∈ top, g.value?.any p = true) ∧ At (C.Holds (top ++ d)) (top ++ d) s := by
  induction n generalizing d with
  | zero => exact .pure _ fun s hs => ⟨[], ⟨rfl, nofun⟩, hs⟩
  | succ n ih =>
    refine (accept p).bind fun b => ?_
    split
    · next hb =>
      subst hb
      rintro s (⟨⟨⟩, -⟩ | ⟨-, g, hg, hs⟩)
      refine (ih.bind fun k => .pure _ ?_) s hs
      rintro s ⟨top, ⟨rfl, htop⟩, hs⟩
      refine ⟨top ++ [g], ⟨by simp, ?_⟩, by simpa using hs⟩
      simpa [or_imp, forall_and] using ⟨htop, hg⟩
    · next hb =>
      refine .pure _ ?_
      rintro s (⟨-, hs⟩ | ⟨rfl, -⟩)
      · exact ⟨[], ⟨rfl, nofun⟩, hs⟩
      · exact absurd rfl hb

theorem acceptUpTo_kept (p : Char → Bool) (n : Nat) : Ensures C.Kept (Scanner.acceptUpTo p n) fun _ => C.Kept := by
  refine of_at fun d => (acceptUpTo p n).post ?_
  rintro k s ⟨top, -, hs⟩
  exact hs.kept

/-- A loop of which every turn leaves nothing out. -/
theorem loop_kept {μ : Logged (Scanner σ) → Nat} {body : Unit → ScanM (Scanner σ) (Turn Unit Unit)}
    {paid : ∀ u, Draws μ (body u)} (h : Ensures C.Kept (body ()) fun _ => C.Kept) :
    Ensures C.Kept (loop μ body paid ()) fun _ => C.Kept := by
  refine Ensures.loop (I := fun _ => C.Kept) (fun _ => h.post ?_) ()
  rintro (_ | _) s hs <;> exact hs

theorem acceptWhile (p : Char → Bool) : Ensures C.Kept (Scanner.acceptWhile p) fun _ => C.Kept :=
  loop_kept (.map (accept_kept p))

/-! ## Up to a closing mark -/

variable (C) in
/-- Look at the next glyph. At the end nothing more is done. -/
theorem next_bind {f : Glyph → ScanM (Scanner σ) α} {Q : α → Logged (Scanner σ) → Prop}
    (hend : ∀ g, g.isEof = true → Ensures C.Kept (f g) Q)
    (hf : ∀ g c d, g.value? = some c → Ensures (At (C.Taken g d) d) (f g) Q) :
    Ensures C.Kept (Scanner.next >>= f) Q := by
  refine of_at fun d => (C.next d d).bind fun g => ?_
  cases hg : g.isEof with
  | true =>
    refine (hend g hg).pre fun s hs => ?_
    refine (hs.mono fun t ht => ?_).kept
    have := ht.holds
    rwa [if_pos hg] at this
  | false =>
    obtain ⟨c, hc⟩ := Glyph.exists_value_of_isEof hg
    exact hf g c d hc

theorem blockComment : Ensures C.Kept Scanner.blockComment fun _ => C.Kept := by
  refine loop_kept (C.next_bind (fun g hg => ?_) fun g c d hc => ?_)
  · rw [if_pos hg]
    exact .pure _ fun s hs => hs
  · rw [if_neg (by rw [Glyph.isEof_eq_false_of_value? hc]; decide)]
    refine (keep_kept hc).bind fun _ => ?_
    split
    · refine (accept_kept _).bind fun b => ?_
      split <;> exact .pure _ fun s hs => hs
    · exact .pure _ fun s hs => hs

theorem headerName (closing : Char) : Ensures C.Kept (Scanner.headerName closing) fun _ => C.Kept := by
  refine loop_kept (C.next_bind (fun g hg => ?_) fun g c d hc => ?_)
  · rw [Glyph.value?_eq_none_iff.2 hg]
    exact .pure _ fun s hs => hs
  · rw [hc]
    dsimp only
    split
    · exact putBack_kept.bind fun _ => .pure _ fun s hs => hs
    · refine (keep_kept hc).bind fun _ => ?_
      split <;> exact .pure _ fun s hs => hs

theorem escape : Ensures C.Kept Scanner.escape fun _ => C.Kept := by
  refine C.next_bind (fun g hg => ?_) fun g c d hc => ?_
  · rw [Glyph.value?_eq_none_iff.2 hg]
    exact .pure _ fun s hs => hs
  · rw [hc]
    dsimp only
    split
    · exact putBack_kept
    · refine (keep_kept hc).bind fun _ => ?_
      split_ifs
      · exact .map (acceptUpTo_kept _ _)
      · exact acceptWhile _
      · exact .map (acceptUpTo_kept _ _)
      · exact .map (acceptUpTo_kept _ _)
      · exact .pure _ fun s hs => hs

theorem literal (quote : Char) : Ensures C.Kept (Scanner.literal quote) fun _ => C.Kept := by
  refine loop_kept (C.next_bind (fun g hg => ?_) fun g c d hc => ?_)
  · rw [Glyph.value?_eq_none_iff.2 hg]
    exact .pure _ fun s hs => hs
  · rw [hc]
    dsimp only
    split
    · exact putBack_kept.bind fun _ => .pure _ fun s hs => hs
    · refine (keep_kept hc).bind fun _ => ?_
      split
      · exact .pure _ fun s hs => hs
      · split
        · exact escape.bind fun _ => .pure _ fun s hs => hs
        · exact .pure _ fun s hs => hs

/-! ## Identifiers and numbers -/

theorem free_of_isHex {p : Char → Bool} (hp : ∀ c, p c = true → Text.isInert c = true) (h : g.value?.any p = true) :
    C.Free g := by
  obtain ⟨c, hc, hpc⟩ := (Option.any_eq_true p _).1 h
  exact C.free_of_inert ⟨c, hc, hp c hpc⟩

/-- If there are too few digits, all is as before the letter. -/
theorem universalDigits (n : Nat) (hd : ∀ g ∈ d.head?, C.Free g) :
    Ensures (At (C.Holds d) d) (Scanner.universalDigits n) fun b s =>
      (b = true ∧ C.Kept s) ∨ (b = false ∧ At (C.Holds d.tail) d.tail s) := by
  refine (acceptUpTo isHex n).bind fun k => .of_exists fun top => .of_prop ?_
  rintro ⟨rfl, htop⟩
  split
  · exact .pure _ fun s hs => .inl ⟨rfl, hs.kept⟩
  · have hlocation : Ensures (At (C.Holds (top ++ d)) (top ++ d)) (onSource (ScanM.view Source.location))
        fun _ => At (C.Holds (top ++ d)) (top ++ d) := onSource_ensures (.view _)
    have hemit (l : Location) : Ensures (At (C.Holds (top ++ d)) (top ++ d)) (ScanM.emit (.incompleteName l))
        fun _ => At (C.Holds (top ++ d)) (top ++ d) := by
      rintro s ⟨hd, hs⟩ _ _ ⟨⟩
      exact ⟨hd, C.incompleteName hs⟩
    have hfree : ∀ g ∈ (top ++ d).take (top.length + 1), C.Free g := by
      intro g hg
      rw [List.take_length_add_append, List.mem_append] at hg
      rcases hg with hg | hg
      · exact free_of_isHex (fun _ => Coupling.isInert_of_isHex) (htop g hg)
      · cases d with
        | nil => cases hg
        | cons x d => exact hd g (by simpa [eq_comm] using hg)
    refine hlocation.bind fun l => (hemit l).bind fun _ => (undoMany _ hfree).bind fun _ => .pure _ fun s hs => ?_
    rw [List.drop_length_add_append, List.drop_one] at hs
    exact .inr ⟨rfl, hs⟩

theorem universalTail : Ensures (At (C.Holds d) d) Scanner.universalTail fun b s =>
    (b = true ∧ C.Kept s) ∨ (b = false ∧ At (C.Holds d) d s) := by
  refine (C.next d d).bind fun g => ?_
  have digits {c : Char} (hc : g.value? = some c) (hi : Text.isInert c = true) (n : Nat) :
      Ensures (At (C.Taken g d) d) (do Scanner.keep g; Scanner.universalDigits n) fun b s =>
        (b = true ∧ C.Kept s) ∨ (b = false ∧ At (C.Holds d) d s) := by
    refine (keep hc).bind fun _ => universalDigits n (d := g :: d) ?_
    rintro x ⟨⟩
    exact C.free_of_inert ⟨c, hc, hi⟩
  split_ifs with hu hu'
  · exact digits (Glyph.is_iff.1 hu) rfl 4
  · exact digits (Glyph.is_iff.1 hu') rfl 8
  · exact putBack.bind fun _ => .pure _ fun s hs => .inr ⟨rfl, hs⟩

theorem identifier [Alphabet] : Ensures C.Kept Scanner.identifier fun _ => C.Kept := by
  refine loop_kept (C.next_bind (fun g hg => ?_) fun g c d hc => ?_)
  · rw [Glyph.value?_eq_none_iff.2 hg]
    exact .pure _ fun s hs => hs
  · rw [hc]
    dsimp only
    split_ifs with hi hb
    · exact (keep_kept hc).bind fun _ => .pure _ fun s hs => hs
    · refine (keep hc).bind fun _ => universalTail.bind fun b => ?_
      split
      · next hb =>
        refine .pure _ ?_
        rintro s (⟨-, hs⟩ | ⟨hf, -⟩)
        · exact hs
        · exact absurd (hb.symm.trans hf) (by decide)
      · next hb' =>
        -- what follows the backslash does not belong to the identifier
        have hfree : ∀ x ∈ (g :: d).head?, C.Free x := by
          rintro x ⟨⟩
          exact C.free_of_backslash (Glyph.is_iff.2 (by rw [hc, hb]))
        refine ((undo hfree).pre ?_).bind fun _ => .pure _ fun s hs => hs.kept
        rintro s (⟨ht, -⟩ | ⟨-, hs⟩)
        · exact absurd ht hb'
        · exact hs
    · exact putBack_kept.bind fun _ => .pure _ fun s hs => hs

theorem number [Alphabet] : Ensures C.Kept Scanner.number fun _ => C.Kept := by
  refine loop_kept ((Ensures.view afterExponent).bind fun signed => C.next_bind (fun g hg => ?_) fun g c d hc => ?_)
  · rw [Glyph.value?_eq_none_iff.2 hg]
    exact .pure _ fun s hs => hs
  · rw [hc]
    dsimp only
    split
    · exact (keep_kept hc).bind fun _ => .pure _ fun s hs => hs
    · exact putBack_kept.bind fun _ => .pure _ fun s hs => hs

/-! ## Digraphs -/

/-- A draft covers what it was before. -/
def Covering (R : Logged σ → Prop) (d : List Glyph) (s : Logged (Scanner σ)) : Prop :=
  ∃ d', Covers d'.reverse d.reverse ∧ At R d' s

theorem Covering.settled {s : Logged (Scanner σ)} (h : Covering (C.Holds gs) gs s) : C.Settled s := by
  obtain ⟨d, hd, hs⟩ := h
  exact ⟨d, gs, hd, hs⟩

omit [Source σ] in
theorem revise_covering {f : Draft → Except Violation Draft}
    (hf : ∀ d', f ⟨d⟩ = .ok d' → Covers d'.newestFirst.reverse d.reverse) :
    Ensures (At R d) (revise f) fun _ => Covering R d := by
  rintro ⟨⟨source, draft⟩, log⟩ ⟨rfl, hs⟩ a s' h
  unfold revise at h
  split at h
  · next d' hd =>
    cases h
    exact ⟨d'.newestFirst, hf d' hd, rfl, hs⟩
  · cases h

omit [Source σ] in
theorem collapse (dg : Digraph) : Ensures (At R d) (revise (·.collapse dg.primary)) fun _ => Covering R d := by
  refine revise_covering fun d' hm => ?_
  obtain _ | ⟨h, _ | ⟨g, d⟩⟩ := d
  · cases hm
  · cases hm
  · simp only [Draft.collapse] at hm
    cases hk : Glyph.merge dg.primary [g, h] <;> rw [hk] at hm <;> cases hm
    obtain rfl := Glyph.eq_of_merge hk
    simpa using (Covers.refl d.reverse).append (.pair dg g h .nil)

omit [Source σ] in
theorem collapseTwo (a b : Digraph) :
    Ensures (At R d) (revise (·.collapseTwo a.primary b.primary)) fun _ => Covering R d := by
  refine revise_covering fun d' hm => ?_
  obtain _ | ⟨k, _ | ⟨j, _ | ⟨h, _ | ⟨g, d⟩⟩⟩⟩ := d
  · cases hm
  · cases hm
  · cases hm
  · cases hm
  · simp only [Draft.collapseTwo] at hm
    cases hk : Glyph.merge a.primary [g, h] <;> rw [hk] at hm
    · cases hm
    cases hl : Glyph.merge b.primary [j, k] <;> rw [hl] at hm <;> cases hm
    obtain rfl := Glyph.eq_of_merge hk
    obtain rfl := Glyph.eq_of_merge hl
    simpa using (Covers.refl d.reverse).append (.pair a g h (.pair b j k .nil))

theorem sharpDigraph : Ensures C.Kept Scanner.sharpDigraph fun _ => C.Settled := by
  refine of_at fun d => (C.next d d).bind fun percent => ?_
  split
  · next hp =>
    have hp' := Glyph.is_iff.1 hp
    have htaken (s : Logged (Scanner σ)) (hs : At (C.Taken percent d) d s) : At (C.Holds (percent :: d)) d s :=
      hs.mono fun _ ht => C.holds_of_fresh (ht.fresh hp')
    refine ((C.next d (percent :: d)).pre htaken).bind fun colon => ?_
    split
    · next hc =>
      refine keep_any.bind fun _ => keep_any.bind fun _ => (collapseTwo .doubleSharp .doubleSharp).post fun _ _ hs => ?_
      obtain ⟨d', hd', hs⟩ := hs
      exact ⟨d', _, hd', hs.mono fun _ ht => C.holds_of_fresh (ht.fresh (Glyph.is_iff.1 hc))⟩
    · have hfree : C.Free percent := C.free_of_inert ⟨'%', hp', rfl⟩
      exact putBack.bind fun _ => (putBack_free hfree hp').bind fun _ =>
        (collapse .sharp).post fun _ _ hs => hs.settled
  · -- what was looked at is given back only after the digraph has been collapsed
    refine (collapse .sharp).bind fun _ => .of_exists fun d' => .of_prop fun hd' => ?_
    exact putBack.post fun _ _ hs => ⟨d', d, hd', hs⟩

/-! ## Following a table -/

variable (C) in
/-- The source takes back anything, or the condition holds. -/
def Suits (b : Bool) : Prop := (∀ g, C.Free g) ∨ b = true

theorem Suits.and {a b : Bool} (h : C.Suits (a && b)) : C.Suits a ∧ C.Suits b := by
  rcases h with h | h
  · exact ⟨.inl h, .inl h⟩
  · rw [Bool.and_eq_true] at h
    exact ⟨.inr h.1, .inr h.2⟩

variable (C) in
/-- What was taken is the draft, and if `inert` says so, the last glyph can be given back at any time. -/
def Topped (inert : Bool) (s : Logged (Scanner σ)) : Prop :=
  C.Kept s ∧ (inert = true → ∀ g ∈ s.state.draft.newestFirst.head?, C.Free g)

/-- A routine that gives back the last glyph can do so. -/
theorem of_topped {m : ScanM (Scanner σ) α} {Q : α → Logged (Scanner σ) → Prop} {inert : Bool} (hr : C.Suits inert)
    (hm : ∀ d : List Glyph, (∀ g ∈ d.head?, C.Free g) → Ensures (At (C.Holds d) d) m Q) :
    Ensures (C.Topped inert) m Q :=
  fun s hs => hm _ (fun g hg => hr.elim (· g) fun hi => hs.2 hi g hg) s hs.1

theorem finish_settled {m : ScanM (Scanner σ) Unit} {k : TokenKind} {inert : Bool}
    (hm : Ensures C.Kept m fun _ => C.Settled) : Ensures (C.Topped inert) (do m; return k) fun _ => C.Settled :=
  (hm.pre fun _ hs => hs.1).bind fun _ => .pure _ fun _ hs => hs

theorem finish_kept {m : ScanM (Scanner σ) Unit} {k : TokenKind} {inert : Bool}
    (hm : Ensures C.Kept m fun _ => C.Kept) : Ensures (C.Topped inert) (do m; return k) fun _ => C.Settled :=
  finish_settled (hm.post fun _ _ hs => hs.settled)

section Tables

variable [Alphabet]

theorem run_routine {r : Routine} {n : Nat} {inert : Bool} (hr : C.Suits (r.fits n inert)) :
    Ensures (C.Topped inert) r.run fun _ => C.Settled := by
  cases r with
  | blanks => exact finish_kept (acceptWhile _)
  | directiveBlanks => exact finish_kept (acceptWhile _)
  | blockComment => exact finish_kept blockComment
  | lineComment => exact finish_kept (acceptWhile _)
  | literal quote kind => exact finish_kept (literal quote)
  | headerName closing kind => exact finish_kept (headerName closing)
  | identifier => exact finish_kept identifier
  | universalName digits =>
    refine of_topped hr.and.1 fun d hd => (universalDigits digits hd).bind fun b => ?_
    split
    · next hb =>
      refine (identifier.pre ?_).bind fun _ => .pure _ fun s hs => hs.settled
      rintro s (⟨-, hs⟩ | ⟨hf, -⟩)
      · exact hs
      · exact absurd (hb.symm.trans hf) (by decide)
    · refine .pure _ ?_
      rintro s (⟨-, hs⟩ | ⟨-, hs⟩)
      · exact hs.settled
      · exact hs.kept.settled
  | number => exact finish_kept number
  | ellipsis =>
    refine of_topped hr.and.1 fun d hd => (accept _).bind fun b => ?_
    split
    · refine .pure _ ?_
      rintro s (⟨-, hs⟩ | ⟨-, g, -, hs⟩) <;> exact hs.kept.settled
    · next hb =>
      refine ((undo hd).pre ?_).bind fun _ => .pure _ fun s hs => hs.kept.settled
      rintro s (⟨-, hs⟩ | ⟨ht, -⟩)
      · exact hs
      · exact absurd ht hb
  | digraph dg => exact finish_settled (of_at fun d => (collapse dg).post fun _ _ hs => hs.settled)
  | sharpDigraph kind => exact finish_settled sharpDigraph
  | shift c =>
    have test (p : Char → Bool) : Ensures C.Kept (discard (Scanner.accept p)) fun _ => C.Kept := .map (accept_kept p)
    exact ((test _).pre fun _ hs => hs.1).bind fun _ => (test _).bind fun _ => .pure _ fun _ hs => hs.settled

theorem run_rule {r : Rule} {n : Nat} {inert : Bool} (hr : C.Suits (r.fits n inert)) :
    Ensures (C.Topped inert) r.run fun _ => C.Settled := by
  cases r with
  | fixed kind => exact .pure _ fun s hs => hs.1.settled
  | routine r => exact run_routine hr

mutual

theorem run_action : (action : Action) → (n : Nat) → (inert : Bool) → C.Suits (action.fits n inert) →
    Ensures (C.Topped inert) action.run fun _ => C.Settled
  | .finish rule, n, inert, h => by
    rw [Action.fits] at h
    exact run_rule h
  | .nested cases otherwise, n, inert, h => by
    rw [Action.fits] at h
    rintro s ⟨hs, hi⟩
    exact ((C.next _ _).bind fun g => choose_case cases otherwise n inert h.and.2 h.and.1 hi g) s hs

theorem choose_case : (cases : List Case) → (otherwise : Rule) → (n : Nat) → (inert : Bool) →
    C.Suits (Case.allFit (n + 1) cases) → C.Suits (otherwise.fits n inert) → {d : List Glyph} →
    (inert = true → ∀ g ∈ d.head?, C.Free g) → (g : Glyph) →
    Ensures (At (C.Taken g d) d) (Case.choose cases otherwise g) fun _ => C.Settled
  | [], otherwise, n, inert, _, ho, d, hi, g => by
    unfold Case.choose
    refine putBack.bind fun _ => (run_rule ho).pre fun s hs => ⟨hs.kept, ?_⟩
    rw [hs.1]
    exact hi
  | ⟨chars, action⟩ :: cases, otherwise, n, inert, hc, ho, d, hi, g => by
    rw [Case.allFit] at hc
    unfold Case.choose
    split
    · next hg =>
      obtain ⟨c, hv, hin⟩ := (Option.any_eq_true _ _).1 hg
      refine (keep hv).bind fun _ => (run_action action (n + 1) chars.isInert hc.and.1).pre fun s hs =>
        ⟨hs.kept, fun hinert => ?_⟩
      rw [hs.1]
      rintro x ⟨⟩
      rw [CharSet.isInert, Bool.not_eq_true'] at hinert
      exact C.free_of_inert ⟨c, hv, Text.isInert_of_class hinert hin⟩
    · exact choose_case cases otherwise n inert hc.and.2 ho hi g

end

/-! ## Tokens -/

omit [Source σ] [Alphabet] in
theorem finish {k : TokenKind} : Ensures (At R d) (Scanner.finish k) fun t s =>
    d ≠ [] ∧ t.glyphs = d.reverse ∧ t.children = [] ∧ At R [] s := by
  rintro ⟨⟨source, ⟨_⟩⟩, log⟩ ⟨rfl, hs⟩ t s' h
  unfold Scanner.finish at h
  split at h
  · next ht =>
    cases h
    unfold Draft.toToken at ht
    split at ht
    · cases ht
    · next hne =>
      obtain ⟨-, -, rfl⟩ := Token.make_eq_ok_iff.1 ht
      exact ⟨fun hd => hne (List.isEmpty_iff.2 hd), rfl, rfl, rfl, hs⟩
  · cases h

variable (C) in
/-- What came of reading a token: nothing at the end, or a token that covers what was taken for it. -/
def Read : Option Token → Logged (Scanner σ) → Prop
  | none, s => At (C.Ended []) [] s
  | some t, s => t.children = [] ∧ ∃ gs, gs ≠ [] ∧ Covers t.glyphs gs.reverse ∧ At (C.Holds gs) [] s

/-- **A token covers what was taken for it**, and nothing else was taken. -/
theorem readToken {table : Table} (ht : C.Suits table.fits) :
    Ensures (At (C.Holds []) []) (Scanner.readToken table) C.Read := by
  refine (C.next [] []).bind fun g => ?_
  cases hg : g.value? with
  | none =>
    refine .pure _ fun s hs => hs.mono ?_
    rintro t (⟨-, ht⟩ | ⟨he, -⟩)
    · exact ht
    · rw [Glyph.value?_eq_none_iff.1 hg] at he
      cases he
  | some lead =>
    have hrest : Ensures (C.Topped false) (readRest table lead) fun _ => C.Settled := by
      unfold readRest
      split
      · next action ha =>
        exact run_action action 1 false (ht.imp_right fun hf => Table.fits_of_lookup hf ha)
      · split
        · exact run_routine (n := 1) (.inr rfl)
        · exact .pure _ fun s hs => hs.1.settled
    refine (keep hg).bind fun _ => (hrest.pre fun s hs => ⟨hs.kept, nofun⟩).bind fun k => ?_
    refine .of_exists fun d => .of_exists fun gs => .of_prop fun hd => finish.bind fun t => .pure _ ?_
    rintro s ⟨hne, hglyphs, hchildren, hs⟩
    refine ⟨hchildren, gs, ?_, hglyphs ▸ hd, hs⟩
    rintro rfl
    cases hd' : d.reverse with
    | nil => exact hne (List.reverse_eq_nil_iff.1 hd')
    | cons g d' =>
      rw [hd'] at hd
      cases hd

end Tables

end Custody

end Pretoken
