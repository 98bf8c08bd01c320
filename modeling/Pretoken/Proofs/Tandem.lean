import Pretoken.Proofs.Triple

/-!
# One run after another

Two runs of the same program on different sources make the same moves as long as the sources give the
same. The right run leads. It may come to a point where the left one cannot follow: then the left run is
lost for good, and nothing is asked of it from there on but, perhaps, the way in which it fails.

* `Bond`: two states in step, and when the left one is lost.
* `Bond.Follows`: the left run follows the right one, with the images of its results.
* `Bond.Follows.bind`, `Bond.Follows.loop`, `Bond.Follows.onState`: the rules, one for each way to
  build a scan.
* **`Bond.Follows.of_ok`**: where the left run is not lost, it gives the image of what the right one gives.
-/

namespace Pretoken

variable {σ τ υ ω α β γ δ ι κ : Type}

/-- A turn with its values changed. -/
def Turn.map (f : γ → δ) (g : α → β) : Turn γ α → Turn δ β
  | .again c => .again (f c)
  | .done a => .done (g a)

/-- The state that an outcome leaves behind. -/
def ScanM.left : EStateM.Result Fault (Logged σ) α → σ
  | .ok _ s => s.state
  | .error _ s => s.state

/-- A scan that leaves the state as it is. -/
def ScanM.Silent (m : ScanM σ α) : Prop :=
  ∀ s, ∃ a log, m s = .ok a ⟨s.state, log⟩

/-- What two runs have to do with each other. -/
structure Bond (σ τ : Type) where
  /-- The runs are in step. -/
  Rel : σ → τ → Prop
  /-- The right run has come where the left one is lost. -/
  Lost : τ → Prop
  /-- How a left run that is lost fails, if it has to. -/
  fault? : Option Fault

namespace Bond

/-- The outcome of a left run that is lost. -/
def Apart (B : Bond σ τ) (x : EStateM.Result Fault (Logged σ) α) : Prop :=
  ∀ f ∈ B.fault?, ∃ s, x = .error f s

/-- The same, and the right run is in a certain condition. -/
def guard (B : Bond σ τ) (I : τ → Prop) : Bond σ τ := { B with Rel := fun s t => B.Rel s t ∧ I t }

/-- **The left run follows the right one**, giving the images under `φ` of its results, unless it is
lost. Once lost it stays so. -/
structure Follows (B : Bond σ τ) (φ : β → α) (m : ScanM σ α) (n : ScanM τ β) : Prop where
  lost : ∀ t, B.Lost t.state → B.Lost (ScanM.left (n t))
  step : ∀ s t, B.Rel s.state t.state →
    Agree (fun a b s t => a = φ b ∧ B.Rel s.state t.state) (m s) (n t) ∨
      B.Lost (ScanM.left (n t)) ∧ B.Apart (m s)

namespace Follows

variable {B : Bond σ τ} {φ : β → α} {m : ScanM σ α} {n : ScanM τ β}

/-! ## Rules -/

theorem pure {a : α} {b : β} (h : a = φ b) : B.Follows φ (pure a) (pure b) where
  lost _ ht := ht
  step _ _ hs := .inl ⟨h, hs⟩

theorem throw (e : Fault) : B.Follows φ (throw e : ScanM σ α) (throw e) where
  lost _ ht := ht
  step _ _ _ := .inl rfl

theorem bind {ψ : δ → γ} {f : α → ScanM σ γ} {g : β → ScanM τ δ} (hm : B.Follows φ m n)
    (hf : ∀ b, B.Follows ψ (f (φ b)) (g b)) : B.Follows ψ (m >>= f) (n >>= g) where
  lost t ht := by
    have h := hm.lost t ht
    change B.Lost (ScanM.left (EStateM.bind n g t))
    unfold EStateM.bind
    match n t, h with
    | .ok b t', h => exact (hf b).lost t' h
    | .error _ _, h => exact h
  step s t hs := by
    have h := hm.step s t hs
    change Agree _ (EStateM.bind m f s) (EStateM.bind n g t) ∨
      B.Lost (ScanM.left (EStateM.bind n g t)) ∧ B.Apart (EStateM.bind m f s)
    unfold EStateM.bind
    rcases h with h | ⟨hl, ha⟩
    · match m s, n t, h with
      | .ok _ s', .ok b t', ⟨rfl, hs'⟩ => exact (hf b).step s' t' hs'
      | .error _ _, .error _ _, h => exact .inl h
    · -- a left run that has failed stays where it is, whatever the right one does next
      refine .inr ⟨?_, fun e he => ?_⟩
      · match n t, hl with
        | .ok b t', hl => exact (hf b).lost t' hl
        | .error _ _, hl => exact hl
      · obtain ⟨s', hs'⟩ := ha e he
        exact ⟨s', by rw [hs']⟩

theorem map {ψ : δ → γ} {f : α → γ} {g : β → δ} (hm : B.Follows φ m n) (h : ∀ b, f (φ b) = ψ (g b)) :
    B.Follows ψ (f <$> m) (g <$> n) := by
  rw [map_eq_pure_bind, map_eq_pure_bind]
  exact hm.bind fun b => .pure (h b)

theorem discard (hm : B.Follows φ m n) : B.Follows id (discard m) (discard n) :=
  hm.map fun _ => rfl

theorem ite {p q : Prop} [Decidable p] [Decidable q] {m' : ScanM σ α} {n' : ScanM τ β} (hpq : p ↔ q)
    (ht : q → B.Follows φ m n) (hf : ¬ q → B.Follows φ m' n') :
    B.Follows φ (if p then m else m') (if q then n else n') := by
  by_cases hq : q
  · rw [if_pos hq, if_pos (hpq.2 hq)]
    exact ht hq
  · rw [if_neg hq, if_neg fun hp => hq (hpq.1 hp)]
    exact hf hq

theorem require (r : Except Violation β) : B.Follows φ (ScanM.require (r.map φ)) (ScanM.require r) := by
  cases r with
  | ok b => exact .pure rfl
  | error v => exact .throw _

theorem view {f : σ → α} {g : τ → β} (h : ∀ s t, B.Rel s t → f s = φ (g t)) :
    B.Follows φ (ScanM.view f) (ScanM.view g) where
  lost _ ht := ht
  step s t hs := .inl ⟨h s.state t.state hs, hs⟩

theorem change {f : σ → σ} {g : τ → τ} (hr : ∀ s t, B.Rel s t → B.Rel (f s) (g t))
    (hl : ∀ t, B.Lost t → B.Lost (g t)) : B.Follows id (ScanM.change f) (ScanM.change g) where
  lost t ht := hl t.state ht
  step s t hs := .inl ⟨rfl, hr s.state t.state hs⟩

/-- What leaves both states as they are makes no difference, whatever it gives. -/
theorem silent_bind [Nonempty α] {ψ : δ → γ} {f : α → ScanM σ γ} {g : β → ScanM τ δ} (hm : m.Silent)
    (hn : n.Silent) (h : ∀ a b, B.Follows ψ (f a) (g b)) : B.Follows ψ (m >>= f) (n >>= g) where
  lost t ht := by
    obtain ⟨b, log, hb⟩ := hn t
    obtain ⟨a⟩ := ‹Nonempty α›
    change B.Lost (ScanM.left (EStateM.bind n g t))
    rw [EStateM.bind, hb]
    exact (h a b).lost ⟨t.state, log⟩ ht
  step s t hs := by
    obtain ⟨a, log, ha⟩ := hm s
    obtain ⟨b, log', hb⟩ := hn t
    change Agree _ (EStateM.bind m f s) (EStateM.bind n g t) ∨
      B.Lost (ScanM.left (EStateM.bind n g t)) ∧ B.Apart (EStateM.bind m f s)
    rw [EStateM.bind, EStateM.bind, ha, hb]
    exact (h a b).step ⟨s.state, log⟩ ⟨t.state, log'⟩ hs

theorem emit_bind {ψ : δ → γ} {e e' : Event} {f : Unit → ScanM σ γ} {g : Unit → ScanM τ δ}
    (h : B.Follows ψ (f ()) (g ())) : B.Follows ψ (ScanM.emit e >>= f) (ScanM.emit e' >>= g) :=
  silent_bind (fun s => ⟨(), e :: s.log, rfl⟩) (fun t => ⟨(), e' :: t.log, rfl⟩) fun _ _ => h

/-- **What every pair of turns does, the loops do.** -/
theorem loop {χ : κ → ι} {μ : Logged σ → Nat} {ν : Logged τ → Nat} {body : ι → ScanM σ (Turn ι α)}
    {body' : κ → ScanM τ (Turn κ β)} {paid : ∀ c, Draws μ (body c)} {paid' : ∀ d, Draws ν (body' d)}
    (h : ∀ d, B.Follows (Turn.map χ φ) (body (χ d)) (body' d)) (d : κ) :
    B.Follows φ (loop μ body paid (χ d)) (loop ν body' paid' d) := by
  have hlost : ∀ d t, B.Lost t.state → B.Lost (ScanM.left (Pretoken.loop ν body' paid' d t)) := by
    intro d t ht
    induction d, t using loop_induct paid' with
    | step d t ih =>
      have hb := (h d).lost t ht
      rw [loop_eq]
      match hn : body' d t, hb with
      | .ok (.again d') t', hb => exact ih d' t' hn hb
      | .ok (.done _) _, hb => exact hb
      | .error _ _, hb => exact hb
  refine ⟨hlost d, fun s t hs => ?_⟩
  induction d, t using loop_induct paid' generalizing s with
  | step d t ih =>
    have hb := (h d).step s t hs
    rw [loop_eq, loop_eq]
    rcases hb with hb | ⟨hl, ha⟩
    · match body (χ d) s, hn : body' d t, hb with
      | .ok _ s', .ok (.again d') t', ⟨rfl, hs'⟩ => exact ih d' t' hn s' hs'
      | .ok _ _, .ok (.done b) _, ⟨rfl, hs'⟩ => exact .inl ⟨rfl, hs'⟩
      | .error _ _, .error _ _, hb => exact .inl hb
    · refine .inr ⟨?_, fun e he => ?_⟩
      · match body' d t, hl with
        | .ok (.again d') t', hl => exact hlost d' t' hl
        | .ok (.done _) _, hl => exact hl
        | .error _ _, hl => exact hl
      · obtain ⟨s', hs'⟩ := ha e he
        exact ⟨s', by rw [hs']⟩

/-- Scans of components that are in step. -/
theorem onState {C : Bond υ ω} {view : υ → σ} {put : σ → υ → υ} {view' : ω → τ} {put' : τ → ω → ω}
    (hm : B.Follows φ m n) (hf : C.fault? = B.fault?)
    (hv : ∀ u w, C.Rel u w → B.Rel (view u) (view' w))
    (hp : ∀ u w s t, C.Rel u w → B.Rel s t → C.Rel (put s u) (put' t w))
    (hl : ∀ w, C.Lost w → B.Lost (view' w)) (hl' : ∀ t w, B.Lost t → C.Lost (put' t w)) :
    C.Follows φ (ScanM.onState view put m) (ScanM.onState view' put' n) where
  lost w hw := by
    have h := hm.lost ⟨view' w.state, w.log⟩ (hl w.state hw)
    unfold ScanM.onState onPart
    match n ⟨view' w.state, w.log⟩, h with
    | .ok _ t, h => exact hl' t.state w.state h
    | .error _ t, h => exact hl' t.state w.state h
  step u w hs := by
    have h := hm.step ⟨view u.state, u.log⟩ ⟨view' w.state, w.log⟩ (hv _ _ hs)
    unfold ScanM.onState onPart
    rcases h with h | ⟨hlost, ha⟩
    · match m ⟨view u.state, u.log⟩, n ⟨view' w.state, w.log⟩, h with
      | .ok _ s, .ok b t, ⟨rfl, hs'⟩ => exact .inl ⟨rfl, hp _ _ _ _ hs hs'⟩
      | .error _ _, .error _ _, h => exact .inl h
    · refine .inr ⟨?_, fun e he => ?_⟩
      · match n ⟨view' w.state, w.log⟩, hlost with
        | .ok _ t, hlost => exact hl' t.state w.state hlost
        | .error _ t, hlost => exact hl' t.state w.state hlost
      · obtain ⟨s, hs'⟩ := ha e (hf ▸ he)
        simp only [hs']
        exact ⟨_, rfl⟩

/-- What the right run keeps on its own may be asked for. -/
theorem guard {I : τ → Prop} (hm : B.Follows φ m n)
    (hI : ∀ t : Logged τ, I t.state → I (ScanM.left (n t))) : (B.guard I).Follows φ m n where
  lost := hm.lost
  step s t hs := by
    have hkept := hI t hs.2
    rcases hm.step s t hs.1 with h | h
    · match m s, n t, h, hkept with
      | .ok _ _, .ok _ _, ⟨ha, hs'⟩, hkept => exact .inl ⟨ha, hs', hkept⟩
      | .error _ _, .error _ _, h, _ => exact .inl h
    · exact .inr h

/-! ## Runs -/

/-- **Where the left run is not lost, it gives the image of what the right one gives.** -/
theorem of_ok (hm : B.Follows φ m n) {s : Logged σ} {t t' : Logged τ} {b : β}
    (hs : B.Rel s.state t.state) (hn : n t = .ok b t') (hl : ¬ B.Lost t'.state) :
    ∃ s', m s = .ok (φ b) s' ∧ B.Rel s'.state t'.state := by
  have h := hm.step s t hs
  rw [hn] at h
  rcases h with h | ⟨hlost, -⟩
  · match hm' : m s, h with
    | .ok _ s', ⟨rfl, hs'⟩ => exact ⟨s', rfl, hs'⟩
  · exact absurd hlost hl

/-- Where the left run never gets lost, both give results that belong together, or both fail. -/
theorem agree (hm : B.Follows φ m n) (hl : ∀ t, ¬ B.Lost t) {s : Logged σ} {t : Logged τ}
    (hs : B.Rel s.state t.state) :
    Agree (fun a b s t => a = φ b ∧ B.Rel s.state t.state) (m s) (n t) := by
  rcases hm.step s t hs with h | ⟨hlost, -⟩
  · exact h
  · exact absurd hlost (hl _)

/-- What the right run establishes on its own holds beside the left run. -/
theorem beside (hm : B.Follows φ m n) (hl : ∀ t, ¬ B.Lost t) {P : τ → Prop} {Q : β → τ → Prop}
    (hn : ScanM.Gives P n Q) :
    ScanM.Beside (fun s t => B.Rel s t ∧ P t) m n fun a b s t => a = φ b ∧ B.Rel s t ∧ Q b t := by
  intro s t hs
  obtain ⟨b, t', ht, hq⟩ := hn t hs.2
  have h := hm.agree hl hs.1
  rw [ht] at h ⊢
  match m s, h with
  | .ok _ _, ⟨ha, hs'⟩ => exact ⟨ha, hs', hq⟩

end Follows

end Bond

end Pretoken
