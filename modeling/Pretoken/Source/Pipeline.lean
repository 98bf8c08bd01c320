import Pretoken.Source.File
import Pretoken.Source.Replay
import Pretoken.Source.Splice
import Pretoken.Source.Trigraph

/-!
# Pipelines

Stages can be put on top of each other in any order.

* `Stacked`: the states of a pile of stages over a file or a replay.
* `Pipeline`: a pile of stages together with its state, itself a source.
* `Phases`: the usual pile, trigraphs below splices over a file.
-/

namespace Pretoken

/-- The usual phases before a text is split into tokens. -/
abbrev Phases := Splice (Trigraph File)

/-- The usual phases over a file. -/
def Phases.ofFile (file : File) (trigraphs : Bool) : Phases := .ofSource ⟨file, trigraphs⟩

/-! ## What a pipeline stands on -/

/-- A file or a replay. -/
inductive Ground where
  | file (file : File)
  | replay (replay : Replay)

namespace Ground

/-- Scan a file one way, a replay another. -/
def scan {α : Type} (onFile : ScanM File α) (onReplay : ScanM Replay α) : ScanM Ground α := fun s =>
  match s.state with
  | file f => match onFile ⟨f, s.log⟩ with
    | .ok a t => .ok a ⟨file t.state, t.log⟩
    | .error e t => .error e ⟨file t.state, t.log⟩
  | replay r => match onReplay ⟨r, s.log⟩ with
    | .ok a t => .ok a ⟨replay t.state, t.log⟩
    | .error e t => .error e ⟨replay t.state, t.log⟩

/-- How much remains of the file or of the replay. -/
def size : Ground → Nat
  | file f => f.size
  | replay r => r.size

theorem scan_within {α : Type} {j : Nat} {k : α → Nat} {onFile : ScanM File α}
    {onReplay : ScanM Replay α} (hf : Within (Logged.size File.size) j onFile k)
    (hr : Within (Logged.size Replay.size) j onReplay k) :
    Within (Logged.size size) j (scan onFile onReplay) k := by
  rintro ⟨_ | _, log⟩ a s' h
  · unfold scan at h
    dsimp only at h
    split at h
    · next ht => cases h; exact hf _ _ _ ht
    · cases h
  · unfold scan at h
    dsimp only at h
    split at h
    · next ht => cases h; exact hr _ _ _ ht
    · cases h

instance : Source Ground where
  take := scan Source.take Source.take
  giveBack g := scan (Source.giveBack g) (Source.giveBack g)
  location
    | file f => f.location
    | replay r => r.location
  file?
    | file f => f.name
    | replay r => r.name
  remaining := size
  take_within := scan_within File.take_within Replay.take_within
  giveBack_within g := scan_within (File.giveBack_within g) (Replay.giveBack_within g)

end Ground

/-! ## Piles of stages -/

/-- A stage of a pipeline. -/
inductive Stage where
  /-- Trigraphs are replaced, or, if not enabled, left alone. -/
  | trigraph (enabled : Bool)
  /-- Lines are spliced. -/
  | splice
deriving DecidableEq, Repr

/-- The states of a pile of stages, the topmost stage first. -/
def Stacked : List Stage → Type
  | [] => Ground
  | .trigraph _ :: below => Trigraph (Stacked below)
  | .splice :: below => Splice (Stacked below)

namespace Stacked

/-- A pile of stages over its ground. -/
def ofGround (ground : Ground) : (stages : List Stage) → Stacked stages
  | [] => ground
  | .trigraph enabled :: below => (⟨ofGround ground below, enabled⟩ : Trigraph (Stacked below))
  | .splice :: below => Splice.ofSource (ofGround ground below)

instance instSource : (stages : List Stage) → Source (Stacked stages)
  | [] => inferInstanceAs (Source Ground)
  | .trigraph _ :: below =>
    have := instSource below
    inferInstanceAs (Source (Trigraph (Stacked below)))
  | .splice :: below =>
    have := instSource below
    inferInstanceAs (Source (Splice (Stacked below)))

end Stacked

/-- Stages on top of each other, in a certain state. -/
structure Pipeline where
  /-- The stages, the topmost first. -/
  stages : List Stage
  /-- Their state. -/
  state : Stacked stages

namespace Pipeline

/-- A pipeline at its beginning. -/
def ofGround (ground : Ground) (stages : List Stage) : Pipeline := ⟨stages, .ofGround ground stages⟩

/-- What is left when the topmost stage is taken off, or the ground if there is none. -/
def peel : Pipeline → Ground ⊕ Pipeline
  | ⟨[], ground⟩ => .inl ground
  | ⟨.trigraph _ :: below, (s : Trigraph (Stacked below))⟩ => .inr ⟨below, s.below⟩
  | ⟨.splice :: below, (s : Splice (Stacked below))⟩ => .inr ⟨below, s.below⟩

/-- A scan of whatever the stages are. -/
def scan {α : Type} (m : (stages : List Stage) → ScanM (Stacked stages) α) : ScanM Pipeline α :=
  fun s => match m s.state.stages ⟨s.state.state, s.log⟩ with
  | .ok a t => .ok a ⟨⟨s.state.stages, t.state⟩, t.log⟩
  | .error e t => .error e ⟨⟨s.state.stages, t.state⟩, t.log⟩

/-- How much remains. -/
def size (p : Pipeline) : Nat := Source.remaining p.state

theorem scan_within {α : Type} {j : Nat} {k : α → Nat}
    {m : (stages : List Stage) → ScanM (Stacked stages) α}
    (h : ∀ stages, Within Source.measure j (m stages) k) : Within (Logged.size size) j (scan m) k := by
  intro s a s' hs
  unfold scan at hs
  split at hs
  · next ht => cases hs; exact h _ _ _ _ ht
  · cases hs

instance : Source Pipeline where
  take := scan fun _ => Source.take
  giveBack g := scan fun _ => Source.giveBack g
  location p := Source.location p.state
  file? p := Source.file? p.state
  remaining := size
  take_within := scan_within fun _ => Source.take_within
  giveBack_within g := scan_within fun _ => Source.giveBack_within g

end Pipeline

end Pretoken
