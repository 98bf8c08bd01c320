import Pretoken.Proofs.Decoding
import Pretoken.Proofs.Following
import Pretoken.Source.File
import Pretoken.Source.Replay

/-!
# Files beside a tape

A tape holds the glyphs of the beginning of a text, and knows whether anybody has seen its end. A file
with that beginning follows the tape. What happens at the end of the tape depends on what the file has
there: its own end, more text, or bytes that are no text at all.

* `Tape`: glyphs to come, and whether the end has been seen.
* `LineReader.Leads`: a reader is about to give some characters, and what holds after them.
* `Edge`: what a file has where the tape ends.
* **`Tape.pact`**: the file follows the tape.
-/

namespace Pretoken

/-! ## Tapes -/

/-- Glyphs to be handed out, and whether there was a request for more. -/
structure Tape extends Replay where
  /-- Whether the end has been seen. -/
  spent : Bool

namespace Tape

/-- The next glyph, or an end. -/
def take : ScanM Tape Glyph := fun s =>
  match s.state.coming with
  | g :: gs => .ok g { s with state := { s.state with coming := gs } }
  | [] => .ok (.eof s.state.name []) { s with state := { s.state with spent := true } }

/-- Give back a character. -/
def giveBack (g : Glyph) : ScanM Tape Unit :=
  if g.isEof then throw (.violation .endPushedBack)
  else ScanM.change fun t => { t with coming := g :: t.coming }

/-- How many glyphs are to come. -/
def size (t : Tape) : Nat := t.coming.length

theorem take_within : Within (Logged.size size) 0 take Glyph.weight := by
  intro s g s' h
  unfold take at h
  split at h
  · next hr =>
    cases h
    have hw := g.weight_le_one
    simp only [Logged.size, size, hr, List.length_cons]
    omega
  · cases h
    exact Nat.le_refl _

theorem giveBack_within (g : Glyph) : Within (Logged.size size) 1 (giveBack g) fun _ => 0 := by
  unfold giveBack
  split
  · exact .throw _
  · exact ScanM.change_within fun t => Nat.le_refl _

instance : Source Tape where
  take := take
  giveBack := giveBack
  location t := t.toReplay.location
  file? t := t.name
  remaining := size
  take_within := take_within
  giveBack_within := giveBack_within

/-- A tape of a text from its beginning, of which nobody has seen the end. -/
def ofText (name : Option String) (cs : List Char) : Tape where
  coming := Glyph.inscribe name .origin cs
  name
  finish := Location.origin.after cs
  spent := false

end Tape

/-! ## The end of a tape -/

namespace LineReader

/-- The reader is about to give the characters `cs`; after them it satisfies `P`. -/
def Leads (P : LineReader → Prop) : List Char → LineReader → Prop
  | [], r => P r
  | c :: cs, r => ∃ r', r.read = .ok (some c) r' ∧ Leads P cs r'

theorem Holds.leads {ds : List Char} (cs : List Char) {r : LineReader} (h : r.Holds (cs ++ ds)) :
    r.Leads (·.Holds ds) cs := by
  induction cs generalizing r with
  | nil => exact h
  | cons c cs ih =>
    obtain ⟨_, r', hr, rfl, hr'⟩ := read_meets _ r h
    exact ⟨r', hr, ih hr'⟩

end LineReader

/-- What a file has where the tape ends. -/
inductive Edge where
  /-- Its own end. -/
  | closed
  /-- More text. -/
  | more (cs : List Char)
  /-- Bytes that cannot be decoded. -/
  | torn

namespace Edge

/-- What is left of the reader at the end of the tape. -/
def Beyond : Edge → LineReader → Prop
  | closed, r => r.Holds []
  | more cs, r => r.Holds cs
  | torn, r => ∃ e r', r.read = .error e r' ∧ e.kind = .invalidData

/-- Who sees the end of the tape loses the file, unless the file ends there as well. -/
def Loses : Edge → Bool → Prop
  | closed, _ => False
  | more _, spent | torn, spent => spent = true

/-- The fault of a file whose end cannot be decoded. -/
def fault? : Edge → Location → Option Fault
  | torn, l => some (.invalidEncoding l)
  | closed, _ | more _, _ => none

end Edge

theorem LineReader.Holds.leads_closed {r : LineReader} {cs : List Char} (h : r.Holds cs) :
    r.Leads Edge.closed.Beyond cs := by
  refine LineReader.Holds.leads cs ?_
  rw [List.append_nil]
  exact h

/-! ## The file follows -/

namespace File

variable {f : File} {r : LineReader} {log : List Event}

theorem take_char {c : Char} (hb : f.returned = []) (hr : f.reader.read = .ok (some c) r) :
    take ⟨f, log⟩ = .ok (.plain c f.name f.place)
      ⟨{ f with reader := r, place := f.place.next c }, log⟩ := by
  simp only [take, hb, readGlyph, hr]

theorem take_end (hb : f.returned = []) (hr : f.reader.read = .ok none r) :
    take ⟨f, log⟩ = .ok (.eof f.name []) ⟨{ f with reader := r }, log⟩ := by
  simp only [take, hb, readGlyph, hr]

theorem take_error {e : ReadError} (hb : f.returned = []) (hr : f.reader.read = .error e r) :
    take ⟨f, log⟩ = .error (e.locate f.place) ⟨{ f with reader := r }, log⟩ := by
  simp only [take, hb, readGlyph, hr]

end File

namespace Tape

open Bond (Follows)

/-- The file is about to give what is to come on the tape, `k` lines further down, and then what is at
its edge. -/
structure Beside (k : Nat) (edge : Edge) (stop : Location) (f : File) (t : Tape) : Prop where
  name : f.name = t.name
  coming : ∃ cs, f.reader.Leads edge.Beyond cs ∧ f.place.after cs = stop.down k ∧
    f.returned ++ Glyph.inscribe f.name f.place cs = t.coming.map (Glyph.down k)
  unseen : ¬ edge.Loses t.spent

/-- A file that goes on at the end of the tape in a certain way. The tape ends at `stop`. -/
def bond (k : Nat) (edge : Edge) (stop : Location) : Bond File Tape where
  Rel := Beside k edge stop
  Lost t := edge.Loses t.spent
  fault? := edge.fault? (stop.down k)

variable {k : Nat} {edge : Edge} {stop : Location}

theorem Beside.after_end {f : File} {t : Tape} (h : Beside k edge stop f t) (ht : t.coming = []) :
    f.returned = [] ∧ f.place = stop.down k ∧ edge.Beyond f.reader := by
  obtain ⟨cs, hlead, hplace, hcoming⟩ := h.coming
  rw [ht, List.map_nil, List.append_eq_nil_iff] at hcoming
  cases cs with
  | nil => exact ⟨hcoming.1, hplace, hlead⟩
  | cons c cs => exact absurd hcoming.2 (List.cons_ne_nil _ _)

theorem take_follows : (bond k edge stop).Follows (Glyph.down k) File.take take := by
  have hlost : ∀ t : Logged Tape, edge.Loses t.state.spent →
      edge.Loses (ScanM.left (take t)).spent := by
    intro t ht
    unfold take
    split
    · exact ht
    · cases edge with
      | closed => exact ht
      | more cs => exact rfl
      | torn => exact rfl
  refine ⟨hlost, fun s t hs => ?_⟩
  obtain ⟨f, log⟩ := s
  obtain ⟨⟨⟨coming, name, finish⟩, spent⟩, log'⟩ := t
  cases coming with
  | cons g gs =>
    obtain ⟨cs, hlead, hplace, hcoming⟩ := hs.coming
    rw [List.map_cons] at hcoming
    refine .inl ?_
    cases hf : f.returned with
    | cons h hs' =>
      rw [hf, List.cons_append, List.cons.injEq] at hcoming
      unfold File.take
      dsimp only
      rw [hf]
      exact ⟨hcoming.1, hs.name, ⟨cs, hlead, hplace, hcoming.2⟩, hs.unseen⟩
    | nil =>
      rw [hf, List.nil_append] at hcoming
      cases cs with
      | nil => cases hcoming
      | cons c cs =>
        obtain ⟨r, hr, hlead⟩ := hlead
        rw [Glyph.inscribe, List.cons.injEq] at hcoming
        rw [File.take_char hf hr]
        refine ⟨hcoming.1, hs.name, ⟨cs, hlead, hplace, ?_⟩, hs.unseen⟩
        rw [hf]
        exact hcoming.2
  | nil =>
    obtain ⟨hreturned, hplace, hbeyond⟩ := hs.after_end rfl
    cases edge with
    | closed =>
      obtain ⟨o, r, hr, rfl, hr'⟩ := LineReader.read_meets [] f.reader hbeyond
      rw [File.take_end hreturned hr]
      refine .inl ⟨congrArg (Glyph.eof · []) hs.name, hs.name, ⟨[], hr', hplace, ?_⟩, hs.unseen⟩
      rw [hreturned]
      rfl
    | more cs =>
      refine .inr ⟨rfl, fun _ hf => ?_⟩
      cases hf
    | torn =>
      obtain ⟨e, r, hr, he⟩ := hbeyond
      refine .inr ⟨rfl, ?_⟩
      rintro _ ⟨⟩
      refine ⟨⟨{ f with reader := r }, log⟩, ?_⟩
      rw [File.take_error hreturned hr, ReadError.locate, if_pos he, hplace]

theorem giveBack_follows (g : Glyph) :
    (bond k edge stop).Follows id (File.giveBack (g.down k)) (giveBack g) := by
  unfold File.giveBack giveBack
  rw [Glyph.isEof_down]
  refine .ite Iff.rfl (fun _ => .throw _) fun _ => .change (fun f t h => ?_) fun _ hl => hl
  obtain ⟨cs, hlead, hplace, hcoming⟩ := h.coming
  refine ⟨h.name, ⟨cs, hlead, hplace, ?_⟩, h.unseen⟩
  rw [List.map_cons, ← hcoming]
  rfl

/-- **A file follows a tape of its beginning.** -/
def pact (k : Nat) (edge : Edge) (stop : Location) : Pact File Tape where
  toBond := bond k edge stop
  lines := k
  take := take_follows
  giveBack := giveBack_follows

/-- At the beginning of a file the tape of its beginning is beside it. -/
theorem beside_ofText {f : File} {cs : List Char} (hr : f.reader.Leads edge.Beyond cs)
    (hp : f.place = Location.origin.down k) (hb : f.returned = []) :
    Beside k edge (Location.origin.after cs) f (ofText f.name cs) := by
  refine ⟨rfl, ⟨cs, hr, by rw [hp, Location.after_down], ?_⟩, ?_⟩
  · rw [hp, hb, Glyph.inscribe_down]
    rfl
  · cases edge <;> exact nofun

end Tape

end Pretoken
