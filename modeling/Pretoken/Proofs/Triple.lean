import Pretoken.Scan

/-!
# Triples for one run and for two runs side by side

* `Meets P m Q`: from every state with `P`, the computation `m` returns, and what it returns
  satisfies `Q`.
* `Lockstep P m n Q`: from states related by `P`, the computations `m` and `n` both return and are
  then related by `Q`, or they fail for the same reason.
* **`Meets.loop`**, **`Lockstep.loop`**: an invariant that every turn keeps is kept by the loop.
* **`eq_loop`**: whatever is a turn and what follows is the loop.
* **`gatherUntil_again`**: gathering draws one item and then the others.
-/

namespace Pretoken

variable {ε σ τ υ α β γ δ : Type}

/-! ## One run -/

/-- From every state with `P` the computation `m` returns, and `Q` holds of the result and the state
that it leaves. -/
def Meets (P : σ → Prop) (m : EStateM ε σ α) (Q : α → σ → Prop) : Prop :=
  ∀ s, P s → ∃ a s', m s = .ok a s' ∧ Q a s'

/-- What a turn of a loop has to establish: the invariant of the next turn, or the result. -/
def Turn.Post (I : α → σ → Prop) (Q : β → σ → Prop) : Turn α β → σ → Prop
  | .again a, s => I a s
  | .done b, s => Q b s

namespace Meets

variable {P P' : σ → Prop} {m : EStateM ε σ α} {Q Q' : α → σ → Prop} {f : α → EStateM ε σ β}
  {R : β → σ → Prop}

theorem pure (a : α) (h : ∀ s, P s → Q a s) : Meets P (pure a : EStateM ε σ α) Q :=
  fun s hs => ⟨a, s, rfl, h s hs⟩

theorem bind (hm : Meets P m Q) (hf : ∀ a, Meets (Q a) (f a) R) : Meets P (m >>= f) R := by
  intro s hs
  obtain ⟨a, t, ht, hq⟩ := hm s hs
  obtain ⟨b, u, hu, hr⟩ := hf a t hq
  refine ⟨b, u, ?_, hr⟩
  change EStateM.bind m f s = _
  rw [EStateM.bind, ht]
  exact hu

theorem map {g : α → β} (hm : Meets P m fun a s => R (g a) s) : Meets P (g <$> m) R := by
  intro s hs
  obtain ⟨a, t, ht, hr⟩ := hm s hs
  refine ⟨g a, t, ?_, hr⟩
  change EStateM.map g m s = _
  rw [EStateM.map, ht]

theorem pre (hm : Meets P m Q) (hp : ∀ s, P' s → P s) : Meets P' m Q :=
  fun s hs => hm s (hp s hs)

theorem post (hm : Meets P m Q) (hq : ∀ a s, Q a s → Q' a s) : Meets P m Q' := by
  intro s hs
  obtain ⟨a, t, ht, h⟩ := hm s hs
  exact ⟨a, t, ht, hq a t h⟩

/-- A fact that does not concern the state may be used to choose the proof. -/
theorem of_prop {p : Prop} (h : p → Meets P m Q) : Meets (fun s => p ∧ P s) m Q :=
  fun s hs => h hs.1 s hs.2

/-- **An invariant of every turn is an invariant of the loop.** -/
theorem loop {μ : σ → Nat} {body : γ → EStateM ε σ (Turn γ α)} {paid : ∀ c, Draws μ (body c)}
    {I : γ → σ → Prop} (h : ∀ c, Meets (I c) (body c) (Turn.Post I Q)) (c : γ) :
    Meets (I c) (loop μ body paid c) Q := by
  intro s hs
  induction c, s using loop_induct paid with
  | step c s ih =>
    obtain ⟨t, s', ht, hp⟩ := h c s hs
    rw [loop_eq, ht]
    cases t with
    | again c' => exact ih c' s' ht hp
    | done a => exact ⟨a, s', rfl, hp⟩

end Meets

theorem onPart_ok {view : σ → τ} {put : τ → σ → σ} {m : EStateM ε τ α} {s : σ} {a : α} {t : τ}
    (h : m (view s) = .ok a t) : onPart view put m s = .ok a (put t s) := by
  rw [onPart, h]

/-! ## Loops as equations -/

/-- What comes after a turn: `f` from the value to go on with, or nothing. -/
def Turn.follow (f : γ → EStateM ε σ α) : Turn γ α → EStateM ε σ α
  | .again c => f c
  | .done a => pure a

section Loop

variable {μ : σ → Nat} {body : γ → EStateM ε σ (Turn γ α)} {paid : ∀ c, Draws μ (body c)}

theorem loop_eq_bind (c : γ) :
    loop μ body paid c = body c >>= Turn.follow (loop μ body paid) := by
  funext s
  change _ = EStateM.bind _ _ s
  rw [loop_eq, EStateM.bind]
  match body c s with
  | .ok (.again _) _ | .ok (.done _) _ | .error _ _ => rfl

/-- **Whatever is a turn and what follows is the loop.** -/
theorem eq_loop {f : γ → EStateM ε σ α} (h : ∀ c, f c = body c >>= Turn.follow f) (c : γ) :
    f c = loop μ body paid c := by
  funext s
  induction c, s using loop_induct paid with
  | step c s ih =>
    rw [h, loop_eq_bind]
    change EStateM.bind _ _ s = EStateM.bind _ _ s
    unfold EStateM.bind
    match hb : body c s with
    | .ok (.again c') s' => exact ih c' s' hb
    | .ok (.done _) _ | .error _ _ => rfl

end Loop

/-! ## Two runs -/

/-- Two outcomes agree: both are results, related by `Q`, or both are the same failure. -/
def Agree (Q : α → β → σ → τ → Prop) : EStateM.Result ε σ α → EStateM.Result ε τ β → Prop
  | .ok a s, .ok b t => Q a b s t
  | .error e _, .error f _ => e = f
  | _, _ => False

theorem Agree.mono {Q Q' : α → β → σ → τ → Prop} (h : ∀ a b s t, Q a b s t → Q' a b s t)
    {x : EStateM.Result ε σ α} {y : EStateM.Result ε τ β} (hx : Agree Q x y) : Agree Q' x y := by
  match x, y, hx with
  | .ok a s, .ok b t, hx => exact h a b s t hx
  | .error _ _, .error _ _, hx => exact hx

/-- What a pair of turns has to establish: both go on, or both stop. -/
def Turn.Pair (I : γ → δ → σ → τ → Prop) (Q : α → β → σ → τ → Prop) :
    Turn γ α → Turn δ β → σ → τ → Prop
  | .again c, .again d, s, t => I c d s t
  | .done a, .done b, s, t => Q a b s t
  | _, _, _, _ => False

/-- From states related by `P` the outcomes of `m` and `n` agree, with `Q` as the relation of their
results. -/
def Lockstep (P : σ → τ → Prop) (m : EStateM ε σ α) (n : EStateM ε τ β)
    (Q : α → β → σ → τ → Prop) : Prop :=
  ∀ s t, P s t → Agree Q (m s) (n t)

namespace Lockstep

variable {P P' : σ → τ → Prop} {m : EStateM ε σ α} {n : EStateM ε τ β}
  {Q Q' : α → β → σ → τ → Prop}

theorem pure (a : α) (b : β) (h : ∀ s t, P s t → Q a b s t) :
    Lockstep P (pure a : EStateM ε σ α) (pure b : EStateM ε τ β) Q := h

theorem bind {f : α → EStateM ε σ γ} {g : β → EStateM ε τ δ} {R : γ → δ → σ → τ → Prop}
    (hm : Lockstep P m n Q) (hf : ∀ a b, Lockstep (Q a b) (f a) (g b) R) :
    Lockstep P (m >>= f) (n >>= g) R := by
  intro s t hs
  have h := hm s t hs
  change Agree R (EStateM.bind m f s) (EStateM.bind n g t)
  unfold EStateM.bind
  match m s, n t, h with
  | .ok a s', .ok b t', h => exact hf a b s' t' h
  | .error _ _, .error _ _, h => exact h

theorem map {f : α → γ} {g : β → δ} {R : γ → δ → σ → τ → Prop}
    (hm : Lockstep P m n fun a b => R (f a) (g b)) : Lockstep P (f <$> m) (g <$> n) R := by
  intro s t hs
  have h := hm s t hs
  change Agree R (EStateM.map f m s) (EStateM.map g n t)
  unfold EStateM.map
  match m s, n t, h with
  | .ok a s', .ok b t', h => exact h
  | .error _ _, .error _ _, h => exact h

theorem pre (hm : Lockstep P m n Q) (hp : ∀ s t, P' s t → P s t) : Lockstep P' m n Q :=
  fun s t hs => hm s t (hp s t hs)

theorem post (hm : Lockstep P m n Q) (hq : ∀ a b s t, Q a b s t → Q' a b s t) : Lockstep P m n Q' :=
  fun s t hs => (hm s t hs).mono hq

/-- If one of two runs in lockstep returns, so does the other. -/
theorem total {R : τ → Prop} {S : β → τ → Prop} (h : Lockstep P m n Q) (hn : Meets R n S) {s : σ}
    {t : τ} (hp : P s t) (hr : R t) :
    ∃ a s' b t', m s = .ok a s' ∧ n t = .ok b t' ∧ Q a b s' t' ∧ S b t' := by
  obtain ⟨b, t', hb, hs⟩ := hn t hr
  have ha := h s t hp
  rw [hb] at ha
  match hm : m s, ha with
  | .ok a s', ha => exact ⟨a, s', b, t', rfl, hb, ha, hs⟩

/-- A fact that does not concern the states may be used to choose the proof. -/
theorem of_prop {p : Prop} (h : p → Lockstep P m n Q) : Lockstep (fun s t => p ∧ P s t) m n Q :=
  fun s t hs => h hs.1 s t hs.2

theorem of_exists {ι : Type} {P : ι → σ → τ → Prop} (h : ∀ i, Lockstep (P i) m n Q) :
    Lockstep (fun s t => ∃ i, P i s t) m n Q :=
  fun s t ⟨i, hs⟩ => h i s t hs

theorem ite {p q : Prop} [Decidable p] [Decidable q] {m' : EStateM ε σ α} {n' : EStateM ε τ β}
    (hpq : p ↔ q) (ht : p → Lockstep P m n Q) (hf : ¬ p → Lockstep P m' n' Q) :
    Lockstep P (if p then m else m') (if q then n else n') Q := by
  by_cases hp : p
  · rw [if_pos hp, if_pos (hpq.1 hp)]
    exact ht hp
  · rw [if_neg hp, if_neg fun hq => hp (hpq.2 hq)]
    exact hf hp

/-- **A relation kept by every pair of turns is kept by the loops.** -/
theorem loop {μ : σ → Nat} {ν : τ → Nat} {body : γ → EStateM ε σ (Turn γ α)}
    {body' : δ → EStateM ε τ (Turn δ β)} {paid : ∀ c, Draws μ (body c)}
    {paid' : ∀ c, Draws ν (body' c)} {I : γ → δ → σ → τ → Prop}
    (h : ∀ c d, Lockstep (I c d) (body c) (body' d) (Turn.Pair I Q)) (c : γ) (d : δ) :
    Lockstep (I c d) (loop μ body paid c) (loop ν body' paid' d) Q := by
  intro s t hs
  induction c, s using loop_induct paid generalizing d t with
  | step c s ih =>
    have hb := h c d s t hs
    rw [loop_eq, loop_eq]
    match hm : body c s, body' d t, hb with
    | .ok (.again c') s', .ok (.again d') t', hb => exact ih c' s' hm d' t' hb
    | .ok (.done a) s', .ok (.done b) t', hb => exact hb
    | .error _ _, .error _ _, hb => exact hb

theorem onPart {view : σ → υ} {put : υ → σ → σ} {view' : τ → γ} {put' : γ → τ → τ}
    {m : EStateM ε υ α} {n : EStateM ε γ β} {P' : υ → γ → Prop} {Q' : α → β → υ → γ → Prop}
    (hm : Lockstep P' m n Q') (hp : ∀ s t, P s t → P' (view s) (view' t))
    (hq : ∀ s t, P s t → ∀ a b u c, Q' a b u c → Q a b (put u s) (put' c t)) :
    Lockstep P (onPart view put m) (onPart view' put' n) Q := by
  intro s t hs
  have h := hm _ _ (hp s t hs)
  unfold Pretoken.onPart
  match m (view s), n (view' t), h with
  | .ok a u, .ok b c, h => exact hq s t hs a b u c h
  | .error _ _, .error _ _, h => exact h

end Lockstep

/-! ## Gathering -/

section Gather

variable {μ : σ → Nat} {m : EStateM ε σ (Turn α β)} {h : Draws μ m} {s s' : σ}

theorem gatherTurn_again {a : α} (hm : m s = .ok (.again a) s') (seen : List α) :
    gatherTurn m seen s = .ok (.again (a :: seen)) s' := by
  simp only [gatherTurn, bind, EStateM.bind, attempt, hm]
  rfl

theorem gatherTurn_done {b : β} (hm : m s = .ok (.done b) s') (seen : List α) :
    gatherTurn m seen s = .ok (.done (seen.reverse, .ok b)) s' := by
  simp only [gatherTurn, bind, EStateM.bind, attempt, hm]
  rfl

theorem gatherTurn_error {e : ε} (hm : m s = .error e s') (seen : List α) :
    gatherTurn m seen s = .ok (.done (seen.reverse, .error e)) s' := by
  simp only [gatherTurn, bind, EStateM.bind, attempt, hm]
  rfl

/-- What was seen before comes before what is gathered. -/
theorem loop_gatherTurn (seen : List α) (s : σ) :
    loop μ (gatherTurn m) (gatherTurn_draws h) seen s =
      ((fun r => (seen.reverse ++ r.1, r.2)) <$> gatherUntil μ m h) s := by
  change _ = EStateM.map _ _ s
  unfold gatherUntil EStateM.map
  induction hn : μ s using Nat.strongRecOn generalizing seen s with
  | ind n ih =>
    subst hn
    rw [loop_eq, loop_eq]
    rcases hm : m s with ⟨a | b, s'⟩ | ⟨e, s'⟩
    · have hlt : μ s' < μ s := h s a s' hm
      rw [gatherTurn_again hm, gatherTurn_again hm]
      simp only
      rw [ih _ hlt (a :: seen) s' rfl, ih _ hlt [a] s' rfl]
      cases loop μ (gatherTurn m) (gatherTurn_draws h) [] s' with
      | ok r t => simp
      | error e t => rfl
    · rw [gatherTurn_done hm, gatherTurn_done hm]
      simp
    · rw [gatherTurn_error hm, gatherTurn_error hm]
      simp

/-- **Gathering draws one item and then the others.** -/
theorem gatherUntil_again {a : α} (hm : m s = .ok (.again a) s') :
    gatherUntil μ m h s = ((fun r => (a :: r.1, r.2)) <$> gatherUntil μ m h) s' := by
  have : gatherUntil μ m h s = loop μ (gatherTurn m) (gatherTurn_draws h) [a] s' := by
    rw [gatherUntil, loop_eq, gatherTurn_again hm]
  rw [this, loop_gatherTurn (h := h)]
  simp

theorem gatherUntil_done {b : β} (hm : m s = .ok (.done b) s') :
    gatherUntil μ m h s = .ok ([], .ok b) s' := by
  rw [gatherUntil, loop_eq, gatherTurn_done hm]
  rfl

theorem gatherUntil_error {e : ε} (hm : m s = .error e s') :
    gatherUntil μ m h s = .ok ([], .error e) s' := by
  rw [gatherUntil, loop_eq, gatherTurn_error hm]
  rfl

/-- An invariant about the items so far that every draw keeps. -/
theorem Meets.gatherUntil {I : List α → σ → Prop} {Q : List α → β → σ → Prop}
    (hI : ∀ as, Meets (I as) m (Turn.Post (fun a => I (as ++ [a])) (Q as))) :
    Meets (I []) (gatherUntil μ m h) fun r s => ∃ b, r.2 = .ok b ∧ Q r.1 b s := by
  refine Meets.loop (I := fun seen => I seen.reverse) (fun seen s hs => ?_) []
  obtain ⟨x, t, ht, hx⟩ := hI seen.reverse s hs
  cases x with
  | again a => exact ⟨_, t, gatherTurn_again ht seen, by simpa [Turn.Post] using hx⟩
  | done b => exact ⟨_, t, gatherTurn_done ht seen, b, rfl, hx⟩

end Gather

/-! ## Scans, whatever the log -/

namespace ScanM

/-- A triple that does not mention the log. -/
abbrev Gives (P : σ → Prop) (m : ScanM σ α) (Q : α → σ → Prop) : Prop :=
  Meets (fun s => P s.state) m fun a s => Q a s.state

/-- A relation between two scans that does not mention the logs. -/
abbrev Beside (P : σ → τ → Prop) (m : ScanM σ α) (n : ScanM τ β) (Q : α → β → σ → τ → Prop) : Prop :=
  Lockstep (fun s t => P s.state t.state) m n fun a b s t => Q a b s.state t.state

section One

variable {P : σ → Prop} {Q : α → σ → Prop}

theorem emit_gives (e : Event) : Gives P (emit e) fun _ => P :=
  fun s hs => ⟨(), { s with log := e :: s.log }, rfl, hs⟩

theorem view_gives (f : σ → α) : Gives P (view f) fun a s => P s ∧ a = f s :=
  fun s hs => ⟨f s.state, s, rfl, hs, rfl⟩

theorem view_keeps (f : σ → α) : Gives P (view f) fun _ => P :=
  (view_gives f).post fun _ _ hs => hs.1

theorem change_gives {f : σ → σ} {R : σ → Prop} (h : ∀ s, P s → R (f s)) :
    Gives P (change f) fun _ => R :=
  fun s hs => ⟨(), { s with state := f s.state }, rfl, h _ hs⟩

theorem require_gives {r : Except Violation α} {a : α} (h : r = .ok a) :
    Gives P (require r) fun b s => b = a ∧ P s := by
  subst h
  exact fun s hs => ⟨a, s, rfl, rfl, hs⟩

theorem loop_gives {μ : Logged σ → Nat} {body : γ → ScanM σ (Turn γ α)} {paid : ∀ c, Draws μ (body c)}
    {I : γ → σ → Prop} (h : ∀ c, Gives (I c) (body c) (Turn.Post I Q)) (c : γ) :
    Gives (I c) (loop μ body paid c) Q := by
  refine Meets.loop (I := fun c (s : Logged σ) => I c s.state) (fun c => (h c).post ?_) c
  rintro (_ | _) s hs <;> exact hs

theorem run_of_gives {m : ScanM σ α} (hm : Gives P m Q) {s : σ} (hs : P s) :
    ∃ a, (m.run s).1 = .ok a ∧ Q a (m.run s).2.1 := by
  obtain ⟨a, t, ht, hq⟩ := hm ⟨s, []⟩ hs
  unfold run
  rw [ht]
  exact ⟨a, rfl, hq⟩

/-- What a scan of a component does to the component; `K` is kept by whatever becomes of it. -/
theorem onState_gives {view : σ → τ} {put : τ → σ → σ} {m : ScanM τ α} {P : τ → Prop}
    {Q : α → τ → Prop} (hm : Gives P m Q) (K : σ → Prop) (hv : ∀ t s, view (put t s) = t)
    (hK : ∀ t s, K s → K (put t s)) :
    Gives (fun s => P (view s) ∧ K s) (onState view put m) fun a s => Q a (view s) ∧ K s := by
  rintro s ⟨hs, hk⟩
  obtain ⟨a, t, ht, hq⟩ := hm ⟨view s.state, s.log⟩ hs
  refine ⟨a, _, onPart_ok ht, ?_, hK _ _ hk⟩
  simpa only [hv] using hq

end One

section Two

variable {P : σ → τ → Prop}

theorem emit_beside (e e' : Event) : Beside P (emit e) (emit e') fun _ _ => P :=
  fun _ _ hs => hs

theorem view_beside (f : σ → α) (g : τ → β) :
    Beside P (view f) (view g) fun a b s t => P s t ∧ a = f s ∧ b = g t :=
  fun _ _ hs => ⟨hs, rfl, rfl⟩

theorem change_beside {f : σ → σ} {g : τ → τ} {R : σ → τ → Prop} (h : ∀ s t, P s t → R (f s) (g t)) :
    Beside P (change f) (change g) fun _ _ => R :=
  fun s t hs => h s.state t.state hs

theorem onState_beside {view : σ → υ} {put : υ → σ → σ} {view' : τ → γ} {put' : γ → τ → τ}
    {m : ScanM υ α} {n : ScanM γ β} {P' : υ → γ → Prop} {Q' : α → β → υ → γ → Prop}
    {Q : α → β → σ → τ → Prop} (hm : Beside P' m n Q') (hp : ∀ s t, P s t → P' (view s) (view' t))
    (hq : ∀ s t, P s t → ∀ a b u c, Q' a b u c → Q a b (put u s) (put' c t)) :
    Beside P (onState view put m) (onState view' put' n) Q :=
  Lockstep.onPart hm (fun _ _ hs => hp _ _ hs) fun _ _ hs a b _ _ h => hq _ _ hs a b _ _ h

theorem loop_beside {μ : Logged σ → Nat} {ν : Logged τ → Nat} {body : γ → ScanM σ (Turn γ α)}
    {body' : δ → ScanM τ (Turn δ β)} {paid : ∀ c, Draws μ (body c)} {paid' : ∀ c, Draws ν (body' c)}
    {I : γ → δ → σ → τ → Prop} {Q : α → β → σ → τ → Prop}
    (h : ∀ c d, Beside (I c d) (body c) (body' d) (Turn.Pair I Q)) (c : γ) (d : δ) :
    Beside (I c d) (loop μ body paid c) (loop ν body' paid' d) Q := by
  refine Lockstep.loop (I := fun c d (s : Logged σ) (t : Logged τ) => I c d s.state t.state)
    (fun c d => (h c d).post ?_) c d
  rintro (_ | _) (_ | _) s t hs <;> exact hs

end Two

end ScanM

end Pretoken
