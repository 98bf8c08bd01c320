/-!
# Stateful computations that make progress

Reading is a computation on a state that may fail: `EStateM ε σ α`. A reader consumes, looks ahead
and gives back, so it terminates for a reason of book-keeping: a measure of the state is an account,
taking a character brings credits, giving one back costs some.

* `Within μ j m k`: whenever `m` returns `a`, the measure has grown by at most `j`, and `k a` credits
  are left over.
* **`loop`**: repeats a body as long as it asks for another turn, provided that every such turn
  lowers the measure. **`loop_eq`** is its unfolding, free of any side condition.
* `gather`, `gatherUntil`: everything that a computation yields until it stops.
* `onPart`: runs a computation on one component of a larger state.
-/

namespace Pretoken

variable {ε σ τ α β : Type}

/-! ## Components of a state -/

/-- Run `m` on the component of the state that `view` shows and `put` replaces. A failure, too,
leaves its mark on the component. -/
def onPart (view : σ → τ) (put : τ → σ → σ) (m : EStateM ε τ α) : EStateM ε σ α := fun s =>
  match m (view s) with
  | .ok a t => .ok a (put t s)
  | .error e t => .error e (put t s)

/-- Run `m` and return its failure instead of failing. -/
def attempt (m : EStateM ε σ α) : EStateM ε σ (Except ε α) := fun s =>
  match m s with
  | .ok a s' => .ok (.ok a) s'
  | .error e s' => .ok (.error e) s'

/-- Rename the failure of `m`, with the state at hand at which it struck. -/
def mapError {ε' : Type} (f : σ → ε → ε') (m : EStateM ε σ α) : EStateM ε' σ α := fun s =>
  match m s with
  | .ok a s' => .ok a s'
  | .error e s' => .error (f s' e) s'

/-! ## Accounts -/

/-- With `j` credits at hand, `m` returns some `a` with `k a` credits left, the measure `μ` being the
account. -/
def Within (μ : σ → Nat) (j : Nat) (m : EStateM ε σ α) (k : α → Nat) : Prop :=
  ∀ s a s', m s = .ok a s' → μ s' + k a ≤ μ s + j

namespace Within

variable {μ : σ → Nat} {ν : τ → Nat} {i j : Nat} {m : EStateM ε σ α} {k l : α → Nat}

theorem pure (a : α) (h : k a ≤ j) : Within μ j (pure a : EStateM ε σ α) k := by
  rintro s a s' ⟨⟩
  omega

theorem throw (e : ε) : Within μ j (throw e : EStateM ε σ α) k := by
  rintro s a s' ⟨⟩

theorem get : Within μ j (MonadState.get : EStateM ε σ σ) fun _ => j := by
  rintro s a s' ⟨⟩
  exact Nat.le_refl _

theorem bind {f : α → EStateM ε σ β} {l : β → Nat} (hm : Within μ j m k)
    (hf : ∀ a, Within μ (k a) (f a) l) : Within μ j (m >>= f) l := by
  intro s b s' h
  change EStateM.bind m f s = _ at h
  unfold EStateM.bind at h
  split at h
  · next a t ht =>
    have := hm _ _ _ ht
    have := hf a _ _ _ h
    omega
  · cases h

theorem map {f : α → β} {l : β → Nat} (hm : Within μ j m fun a => l (f a)) :
    Within μ j (f <$> m) l := by
  intro s b s' h
  change EStateM.map f m s = _ at h
  unfold EStateM.map at h
  split at h
  · next ht => cases h; exact hm _ _ _ ht
  · cases h

/-- More credits at hand, or fewer asked for. -/
theorem weaken (c : Nat) (hm : Within μ i m k) (hj : i + c ≤ j) (hl : ∀ a, l a ≤ k a + c) :
    Within μ j m l := by
  intro s a s' h
  have := hm _ _ _ h
  have := hl a
  omega

/-- Credits that are not touched stay. -/
theorem frame (c : Nat) (hm : Within μ i m k) : Within μ (i + c) m fun a => k a + c :=
  hm.weaken c (Nat.le_refl _) fun _ => Nat.le_refl _

/-- A component that counts `c`-fold: so do the credits of a computation on it. -/
theorem onPart {m : EStateM ε τ α} {view : σ → τ} {put : τ → σ → σ} (c : Nat)
    (hμ : ∀ s t, μ (put t s) + c * ν (view s) ≤ μ s + c * ν t) (hm : Within ν i m k)
    (hj : c * i ≤ j) (hl : ∀ a, l a ≤ c * k a) : Within μ j (onPart view put m) l := by
  intro s a s' hs
  unfold Pretoken.onPart at hs
  split at hs
  · next b t ht =>
    cases hs
    have h₁ := Nat.mul_le_mul_left c (hm _ _ _ ht)
    have h₂ := hμ s t
    have h₃ := hl a
    rw [Nat.mul_add, Nat.mul_add] at h₁
    omega
  · cases hs

end Within

/-! ## The loop -/

/-- What a turn of a loop comes to: a value to go on with, or a result to stop with. -/
inductive Turn (α β : Type) where
  /-- Go on with this value. -/
  | again (a : α)
  /-- Stop with this result. -/
  | done (b : β)

namespace Turn

/-- A turn that asks for another has to leave one credit. -/
def toll : Turn α β → Nat
  | again _ => 1
  | done _ => 0

/-- The credits of a result; a turn that asks for another needs to leave none. -/
def credit (k : β → Nat) : Turn α β → Nat
  | again _ => 0
  | done b => k b

/-- No value is a reason to stop. -/
def ofOption : Option α → Turn α Unit
  | none => done ()
  | some a => again a

end Turn

/-- Every turn of `m` after which there may be another lowers the measure. -/
def Draws (μ : σ → Nat) (m : EStateM ε σ (Turn α β)) : Prop :=
  ∀ s a s', m s = .ok (.again a) s' → μ s' < μ s

theorem Within.draws {μ : σ → Nat} {m : EStateM ε σ (Turn α β)} (h : Within μ 0 m Turn.toll) :
    Draws μ m := by
  intro s a s' hs
  have := h _ _ _ hs
  simp only [Turn.toll] at this
  omega

/-- **Repeat** `body` until it is done. Each further turn is paid for by the measure `μ`. -/
def loop (μ : σ → Nat) (body : α → EStateM ε σ (Turn α β)) (paid : ∀ a, Draws μ (body a)) (a : α) :
    EStateM ε σ β := fun s =>
  match h : body a s with
  | .ok (.again a') s' =>
    have : μ s' < μ s := paid a _ _ _ h
    loop μ body paid a' s'
  | .ok (.done b) s' => .ok b s'
  | .error e s' => .error e s'
termination_by s => μ s

section Loop

variable {μ : σ → Nat} {body : α → EStateM ε σ (Turn α β)} {paid : ∀ a, Draws μ (body a)}

/-- **Unfolding of the loop.** -/
theorem loop_eq (a : α) (s : σ) :
    loop μ body paid a s = match body a s with
      | .ok (.again a') s' => loop μ body paid a' s'
      | .ok (.done b) s' => .ok b s'
      | .error e s' => .error e s' := by
  rw [loop]
  split <;> simp_all

/-- Induction along the turns of a loop. -/
theorem loop_induct (paid : ∀ a, Draws μ (body a)) {motive : α → σ → Prop}
    (step : ∀ a s, (∀ a' s', body a s = .ok (.again a') s' → motive a' s') → motive a s)
    (a : α) (s : σ) : motive a s := by
  induction hn : μ s using Nat.strongRecOn generalizing a s with
  | ind n ih =>
    subst hn
    exact step a s fun a' s' h => ih (μ s') (paid a _ _ _ h) a' s' rfl

/-- A loop whose turns never raise a measure does not raise it either, and passes on the credits of
its last turn. -/
theorem Within.loop {ν : σ → Nat} {k : β → Nat} (h : ∀ a, Within ν 0 (body a) (Turn.credit k))
    (a : α) : Within ν 0 (loop μ body paid a) k := by
  intro s b s' hs
  induction a, s using loop_induct paid with
  | step a s ih =>
    rw [loop_eq] at hs
    split at hs
    · next a' t ht =>
      have := ih a' t ht hs
      have := h a _ _ _ ht
      simp only [Turn.credit] at this
      omega
    · next b' t ht => cases hs; exact h a _ _ _ ht
    · cases hs

end Loop

/-! ## Gathering -/

section Gather

variable {μ : σ → Nat}

/-- Draw one item and put it before those drawn so far. -/
def gatherTurn (m : EStateM ε σ (Turn α β)) (seen : List α) :
    EStateM ε σ (Turn (List α) (List α × Except ε β)) := do
  match ← attempt m with
  | .error e => return .done (seen.reverse, .error e)
  | .ok (.done b) => return .done (seen.reverse, .ok b)
  | .ok (.again a) => return .again (a :: seen)

theorem gatherTurn_draws {m : EStateM ε σ (Turn α β)} (h : Draws μ m) (seen : List α) :
    Draws μ (gatherTurn m seen) := by
  intro s a s' hs
  simp only [gatherTurn, bind, EStateM.bind, attempt, pure] at hs
  split at hs
  · next r t ht =>
    split at ht
    · next r' t' ht' =>
      cases ht
      match r', hs, ht' with
      | .done b, hs, _ => cases hs
      | .again x, hs, ht' => cases hs; exact h _ _ _ ht'
    · cases ht; cases hs
  · next ht => split at ht <;> cases ht

/-- All items that `m` draws, in order, and how it ended: with a result or with a failure. -/
def gatherUntil (μ : σ → Nat) (m : EStateM ε σ (Turn α β)) (h : Draws μ m) :
    EStateM ε σ (List α × Except ε β) :=
  loop μ (gatherTurn m) (gatherTurn_draws h) []

/-- All items that `m` draws, in order, and its result. -/
def gather (μ : σ → Nat) (m : EStateM ε σ (Turn α β)) (h : Draws μ m) : EStateM ε σ (List α × β) := do
  let (items, ending) ← gatherUntil μ m h
  match ending with
  | .ok b => return (items, b)
  | .error e => throw e

end Gather

end Pretoken
