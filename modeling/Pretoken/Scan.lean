import Pretoken.Event
import Pretoken.Fault
import Pretoken.Progress

/-!
# Scans

A scan is a computation on some state that may fail and that keeps a log. A failure leaves the state
as it found it at that moment, so that a later scan can go on from there.

* `ScanM`: the monad of scans.
* `ScanM.onState`: a scan of a component of the state, with the log shared.
* `ScanM.run`: outcome, final state and log of a scan.
-/

namespace Pretoken

/-- A state and the events logged so far, the latest first. -/
structure Logged (σ : Type) where
  /-- The state proper. -/
  state : σ
  /-- The events so far, the latest first. -/
  log : List Event

/-- A computation that reads and changes a state, logs events and may fail. -/
abbrev ScanM (σ : Type) := EStateM Fault (Logged σ)

/-- A measure of the state, whatever the log. -/
def Logged.size {σ : Type} (μ : σ → Nat) (s : Logged σ) : Nat := μ s.state

namespace ScanM

variable {σ τ α : Type}

/-- Log an event. -/
def emit (e : Event) : ScanM σ Unit := fun s => .ok () { s with log := e :: s.log }

/-- Something that the state shows. -/
def view (f : σ → α) : ScanM σ α := fun s => .ok (f s.state) s

/-- Change the state. -/
def change (f : σ → σ) : ScanM σ Unit := fun s => .ok () { s with state := f s.state }

/-- Stop at a broken contract, else go on with the value. -/
def require : Except Violation α → ScanM σ α
  | .ok a => pure a
  | .error v => throw (.violation v)

/-- Scan the component of the state that `view` shows and `put` replaces. -/
def onState (view : σ → τ) (put : τ → σ → σ) (m : ScanM τ α) : ScanM σ α :=
  onPart (fun s => { state := view s.state, log := s.log })
    (fun t s => { state := put t.state s.state, log := t.log }) m

/-- Scan something else, sharing nothing but the log. -/
def aside (s : τ) (m : ScanM τ α) : ScanM σ α :=
  onPart (fun t => { state := s, log := t.log }) (fun u t => { t with log := u.log }) m

/-- What came of a scan that starts at `s` with an empty log: its outcome, the state that it left,
and its log in order. -/
def run (m : ScanM σ α) (s : σ) : Except Fault α × σ × List Event :=
  match m { state := s, log := [] } with
  | .ok a t => (.ok a, t.state, t.log.reverse)
  | .error e t => (.error e, t.state, t.log.reverse)

/-! ## Progress -/

variable {μ : σ → Nat} {ν : τ → Nat} {i j : Nat} {k l : α → Nat}

theorem emit_within (e : Event) : Within (Logged.size μ) j (emit e) fun _ => j := by
  rintro s a s' ⟨⟩
  exact Nat.le_refl _

theorem view_within (f : σ → α) (h : ∀ a, k a ≤ j) : Within (Logged.size μ) j (view f) k := by
  rintro s a s' ⟨⟩
  exact Nat.add_le_add_left (h _) _

theorem change_within {f : σ → σ} (h : ∀ s, μ (f s) ≤ μ s + i) :
    Within (Logged.size μ) (i + j) (change f) fun _ => j := by
  rintro s a s' ⟨⟩
  have := h s.state
  simp only [Logged.size]
  omega

theorem require_within (r : Except Violation α) (h : ∀ a, r = .ok a → k a ≤ j) :
    Within (Logged.size μ) j (require r) k := by
  match r with
  | .ok a => exact .pure a (h a rfl)
  | .error v => exact .throw _

theorem onState_within {view : σ → τ} {put : τ → σ → σ} {m : ScanM τ α} (c : Nat)
    (hμ : ∀ s t, μ (put t s) + c * ν (view s) ≤ μ s + c * ν t)
    (hm : Within (Logged.size ν) i m k) (hj : c * i ≤ j) (hl : ∀ a, l a ≤ c * k a) :
    Within (Logged.size μ) j (onState view put m) l :=
  .onPart c (fun s t => hμ s.state t.state) hm hj hl

end ScanM

end Pretoken
