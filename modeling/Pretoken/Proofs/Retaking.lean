import Pretoken.Proofs.Arrival
import Pretoken.Proofs.Kinds
import Pretoken.Proofs.Upkeep

/-!
# Taking again what was given back

A glyph that was taken and given back is taken again, and leaves the source as it was left the first time. An
end, and a failure, come again without being given back. So looking at the next glyph changes nothing that can
be observed later.

* `Feed.Flows`: bytes that arrive in pieces, none of them empty, without failures.
* `LineReader.read_rests`: a reader that has come to its end, or to bytes that it cannot decode, stays there.
* `File.upkeep`: what files keep up.
* `Trigraph.Replaced`: how a glyph comes out of the stage for trigraphs. `Upkeep.Steady.replaces`: in no other way.
* `Upkeep.Steady`: the laws of taking again. `File.steady`, `Upkeep.Steady.trigraph`, `Upkeep.Steady.splice`: files
  and stages have them.
* **`Phases.steady`**: so do the phases.
-/

namespace Pretoken

section Bind

variable {ε σ α β : Type} {m : EStateM ε σ α} {f : α → EStateM ε σ β} {s s' : σ}

theorem bind_of_ok {a : α} (h : m s = .ok a s') : (m >>= f) s = f a s' := by
  change EStateM.bind m f s = _
  rw [EStateM.bind, h]

theorem bind_of_error {e : ε} (h : m s = .error e s') : (m >>= f) s = .error e s' := by
  change EStateM.bind m f s = _
  rw [EStateM.bind, h]

theorem attempt_of_ok {a : α} (h : m s = .ok a s') : attempt m s = .ok (.ok a) s' := by
  rw [attempt, h]

theorem attempt_of_error {e : ε} (h : m s = .error e s') : attempt m s = .ok (.error e) s' := by
  rw [attempt, h]

end Bind

section Run

variable {σ α : Type} {m : ScanM σ α} {s : σ} {a : α}

theorem ScanM.run_of_ok {s' : Logged σ} (h : m ⟨s, []⟩ = .ok a s') :
    m.run s = (.ok a, s'.state, s'.log.reverse) := by
  rw [run, h]

theorem ScanM.exists_of_run (h : (m.run s).1 = .ok a) : ∃ s', m ⟨s, []⟩ = .ok a s' := by
  rw [run] at h
  cases hm : m ⟨s, []⟩ with
  | ok b s' =>
    rw [hm] at h
    cases h
    exact ⟨s', rfl⟩
  | error e s' =>
    rw [hm] at h
    cases h

end Run

/-! ## Readers -/

/-- From `s`, `m` gives something and leaves a state with `I`, or it comes to rest in such a state: there it gives
nothing, or fails, again and again. -/
inductive Rests {ε σ α : Type} (I : σ → Prop) (m : EStateM ε σ (Option α)) (s : σ) : Prop
  | more {a : α} {s' : σ} (run : m s = .ok (some a) s') (kept : I s')
  | ended {s' : σ} (run : m s = .ok none s') (kept : I s') (again : m s' = .ok none s')
  | failed {e : ε} {s' : σ} (run : m s = .error e s') (kept : I s') (again : m s' = .error e s')

/-- The bytes arrive in pieces that are not empty, and no read fails. -/
def Feed.Flows (feed : Feed) : Prop := feed.Solid ∧ feed.failures = []

instance (feed : Feed) : Decidable feed.Flows := inferInstanceAs (Decidable (_ ∧ _))

theorem Feed.Flows.eq_nil {feed : Feed} (h : feed.Flows) (hc : feed.content = []) : feed = [] := by
  obtain ⟨hs, hf⟩ := h
  match feed, hs, hf, hc with
  | [], _, _, _ => rfl
  | .bytes [] :: rest, hs, _, _ => exact absurd List.mem_cons_self hs
  | .failure _ _ :: rest, _, hf, _ => cases hf

namespace Decoder

/-- Nothing is filled if there is enough, or nothing more. -/
theorem fill_idle {want : Nat} {d : Decoder} (h : want ≤ d.pending.length ∨ d.feed = []) :
    fill want d = .ok () d := by
  have hturn : fillTurn want d = .ok (.done ()) d := by
    unfold fillTurn
    split
    · next hlt =>
      obtain ⟨pending, feed⟩ := d
      obtain rfl : feed = [] := h.resolve_left (by omega)
      rfl
    · rfl
  rw [fill, loop_eq, hturn]

/-- All bytes that the next character needs are pending, or all there are. -/
def Filled (d : Decoder) : Prop :=
  d.feed.Flows ∧ ((d.pending ≠ [] ∧ Utf8.width d.pending ≤ d.pending.length) ∨ d.feed = [])

theorem read_eq_of_filled {d : Decoder} (h : d.Filled) : read d = takeChar d := by
  unfold read
  rw [bind_of_ok (fill_idle (h.2.imp_left fun hp => List.length_pos_iff.2 hp.1))]
  change (fill (Utf8.width d.pending) >>= fun _ => takeChar) d = _
  rw [bind_of_ok (fill_idle (h.2.imp_left And.right))]

theorem exists_filled {d : Decoder} (h : d.feed.Flows) : ∃ d', read d = takeChar d' ∧ d'.Filled := by
  have hd : d.Arrives (d.pending ++ d.feed.content) [] := ⟨h.1, rfl, h.2⟩
  obtain ⟨d₁, h₁, ha₁, hfull₁⟩ | ⟨_, _, _, _, _, _, hf⟩ := fill_cases (by decide : 1 ≤ capacity) hd
  · obtain ⟨d₂, h₂, ha₂, hfull₂⟩ | ⟨_, _, _, _, _, _, hf⟩ := fill_cases (Utf8.width_le d₁.pending) ha₁
    · refine ⟨d₂, ?_, ⟨ha₂.solid, ha₂.failures⟩, ?_⟩
      · unfold read
        rw [bind_of_ok h₁]
        change (fill (Utf8.width d₁.pending) >>= fun _ => takeChar) d₁ = _
        rw [bind_of_ok h₂]
      · refine (full_of_fills ha₁.content ha₂.content hfull₁ hfull₂).imp_right fun hp => ?_
        refine Feed.Flows.eq_nil ⟨ha₂.solid, ha₂.failures⟩ ?_
        have hc := ha₂.content
        rwa [hp, List.append_right_eq_self] at hc
    · cases hf
  · cases hf

/-- **A decoder that has nothing to give stays as it is.** -/
theorem read_rests {d : Decoder} (h : d.feed.Flows) : Rests (fun d => d.feed.Flows) read d := by
  obtain ⟨d₁, hread, hfill⟩ := exists_filled h
  have hagain : read d₁ = takeChar d₁ := read_eq_of_filled hfill
  rw [takeChar] at hread hagain
  cases hd : Utf8.decodeHead d₁.pending with
  | error e =>
    rw [hd] at hread hagain
    exact .failed hread hfill.1 hagain
  | ok o =>
    rw [hd] at hread hagain
    cases o with
    | none => exact .ended hread hfill.1 hagain
    | some p => exact .more hread hfill.1

end Decoder

namespace LineReader

/-- The bytes arrive, and nothing has been read ahead. -/
def Clear (r : LineReader) : Prop := r.ahead = none ∧ r.decoder.feed.Flows

theorem decode_rests {r : LineReader} (h : r.Clear) : Rests Clear decode r := by
  have hput {a : Option Char} {d d' : Decoder} (hd : Decoder.read d = .ok a d') :
      decode ⟨d, none⟩ = .ok a ⟨d', none⟩ := onPart_ok hd
  have hfail {e : ReadError} {d d' : Decoder} (hd : Decoder.read d = .error e d') :
      decode ⟨d, none⟩ = .error e ⟨d', none⟩ := by
    rw [decode, onPart, hd]
  obtain ⟨d, _⟩ := r
  obtain ⟨rfl, hr⟩ := h
  cases Decoder.read_rests hr with
  | more hd hf => exact .more (hput hd) ⟨rfl, hf⟩
  | ended hd hf hagain => exact .ended (hput hd) ⟨rfl, hf⟩ (hput hagain)
  | failed hd hf hagain => exact .failed (hfail hd) ⟨rfl, hf⟩ (hfail hagain)

theorem nextRaw_of_clear {r : LineReader} (h : r.Clear) : nextRaw r = decode r := by
  rw [nextRaw, h.1]

theorem read_of_decode {r r' : LineReader} (h : r.Clear) :
    (decode r = .ok none r' → read r = .ok none r') ∧ ∀ e, decode r = .error e r' → read r = .error e r' := by
  rw [← nextRaw_of_clear h, read]
  constructor
  · intro hd
    rw [bind_of_ok hd]
    rfl
  · intro e hd
    rw [bind_of_error hd]

/-- What comes of a character before line ends are unified. -/
theorem read_rests_of_nextRaw {r r₁ : LineReader} {c : Char} (hc : nextRaw r = .ok (some c) r₁)
    (h₁ : r₁.Clear) : Rests (fun r => r.decoder.feed.Flows) read r := by
  have hread : read r = (if c = '\r' then do afterReturn; return some '\n' else return some c :
      EStateM ReadError LineReader (Option Char)) r₁ := by
    rw [read, bind_of_ok hc]
  by_cases hret : c = '\r'
  · rw [if_pos hret] at hread
    -- what follows a carriage return is looked at, and may turn out not to be decodable
    cases decode_rests h₁ with
    | @more d r₂ hd h₂ =>
      by_cases hn : d = '\n'
      · have hrun : read r = .ok (some '\n') r₂ := by
          rw [hread, afterReturn, bind_assoc, bind_of_ok hd, hn]
          rfl
        exact .more hrun h₂.2
      · have hrun : read r = .ok (some '\n') { r₂ with ahead := some d } := by
          rw [hread, afterReturn, bind_assoc, bind_of_ok hd]
          simp only [hn, if_false]
          rfl
        exact .more hrun h₂.2
    | @ended r₂ hd h₂ _ =>
      have hrun : read r = .ok (some '\n') r₂ := by
        rw [hread, afterReturn, bind_assoc, bind_of_ok hd]
        rfl
      exact .more hrun h₂.2
    | @failed e r₂ hd h₂ hagain =>
      have hrun : read r = .error e r₂ := by
        rw [hread, afterReturn, bind_assoc, bind_of_error hd]
      exact .failed hrun h₂.2 ((read_of_decode h₂).2 e hagain)
  · rw [if_neg hret] at hread
    exact .more hread h₁.2

/-- **A reader that has nothing to give stays as it is.** -/
theorem read_rests {r : LineReader} (h : r.decoder.feed.Flows) :
    Rests (fun r => r.decoder.feed.Flows) read r := by
  cases ha : r.ahead with
  | some c =>
    have hc : nextRaw r = .ok (some c) { r with ahead := none } := by rw [nextRaw, ha]
    exact read_rests_of_nextRaw hc ⟨rfl, h⟩
  | none =>
    have hclear : r.Clear := ⟨ha, h⟩
    cases decode_rests hclear with
    | more hd h₁ => exact read_rests_of_nextRaw ((nextRaw_of_clear hclear).trans hd) h₁
    | ended hd h₁ hagain =>
      exact .ended ((read_of_decode hclear).1 hd) h₁.2 ((read_of_decode h₁).1 hagain)
    | failed hd h₁ hagain =>
      exact .failed ((read_of_decode hclear).2 _ hd) h₁.2 ((read_of_decode h₁).2 _ hagain)

/-- The bytes arrive. -/
def Flows (r : LineReader) : Prop := r.decoder.feed.Flows

/-- Reading keeps up `R`, whatever comes of it. -/
structure Lasts (R : LineReader → Prop) : Prop where
  ok : ∀ {r r' o}, R r → read r = .ok o r' → R r'
  error : ∀ {r r' e}, R r → read r = .error e r' → R r'

/-- Nothing has to be kept up. -/
theorem lasts_true : Lasts fun _ => True where
  ok _ _ := trivial
  error _ _ := trivial

theorem lasts_flows : Lasts Flows where
  ok h hr := by
    cases read_rests h with
    | more run kept => cases hr.symm.trans run; exact kept
    | ended run kept => cases hr.symm.trans run; exact kept
    | failed run => cases hr.symm.trans run
  error h hr := by
    cases read_rests h with
    | more run => cases hr.symm.trans run
    | ended run => cases hr.symm.trans run
    | failed run kept => cases hr.symm.trans run; exact kept

/-- A reader never gives a carriage return. -/
theorem read_ne_return : Returns read fun o => o ≠ some '\r' := by
  unfold read
  refine .bind fun o => ?_
  cases o with
  | none => exact .pure nofun
  | some c =>
    dsimp only
    split
    · exact .bind fun _ => .pure (by decide)
    · next hc => exact .pure fun he => hc (Option.some.inj he)

end LineReader

open ScanM (Fares)

/-! ## The laws of taking again -/

section Laws

variable {σ : Type} [Source σ]

/-- What can come of taking a glyph with `m` from `s`. -/
inductive Retakes (Good : Glyph → Prop) (Fine : σ → Prop) (Failed : Fault → σ → Prop) (m : ScanM σ Glyph)
    (s : Logged σ) : Prop
  /-- A character, which starts where the source stands. If it is given back, or another one that shows the same,
  then that one comes next and leaves the source as it was left before. -/
  | char {g : Glyph} {u : Logged σ} (run : m s = .ok g u) (good : Good g) (fine : Fine u.state)
    (start : g.start? = some (Source.location s.state))
    (again : ∀ h, Good h → h.value? = g.value? → ∃ v, Source.giveBack h u = .ok () v ∧ m v = .ok h u)
  /-- An end, which comes again. -/
  | ended {g : Glyph} {u : Logged σ} (run : m s = .ok g u) (good : g.Admitted Good) (eof : g.isEof = true)
    (fine : Fine u.state) (again : m u = .ok g u)
  /-- A failure, which comes again. -/
  | failed {e : Fault} {u : Logged σ} (run : m s = .error e u) (left : Failed e u.state)
    (again : m u = .error e u)

/-- Looking at the next glyph changes nothing, and the source stands where a glyph starts that was given back. -/
structure Upkeep.Steady (U : Upkeep σ) : Prop where
  take : ∀ {s : Logged σ}, U.Fine s.state → Retakes U.Good U.Fine U.Failed Source.take s
  back : ∀ {s v : Logged σ} {h}, U.Good h → Source.giveBack h s = .ok () v →
    h.start? = some (Source.location v.state)

/-- A glyph with `p` that is given back comes next, wherever the source stands. -/
def Upkeep.Pops (U : Upkeep σ) (p : Glyph → Prop) : Prop :=
  ∀ {s : Logged σ} {h}, U.Fine s.state → U.Good h → p h →
    ∃ v, Source.giveBack h s = .ok () v ∧ Source.take v = .ok h s

end Laws

/-! ## Files -/

namespace File

variable {Good : Glyph → Prop} {g : Glyph}

/-- What has been given back is good, and the reader is in a state with `R`. -/
def Fine (Good : Glyph → Prop) (R : LineReader → Prop) (f : File) : Prop :=
  (∀ g ∈ f.returned, Good g) ∧ R f.reader

theorem giveBack_ok (hg : g.isEof = false) (s : Logged File) :
    giveBack g s = .ok () { s with state := { s.state with returned := g :: s.state.returned } } := by
  rw [giveBack, hg, if_neg Bool.false_ne_true]
  rfl

theorem location_cons (hg : g.Placed) (r : LineReader) (name : Option String) (place : Location)
    (gs : List Glyph) : g.start? = some (location ⟨r, name, place, g :: gs⟩) := by
  obtain ⟨l, hl⟩ := Option.isSome_iff_exists.1 hg.start
  rw [location, List.head?_cons, Option.bind_some, hl, Option.getD_some]

variable (hG : Glyph.Closed Good)

/-- **The upkeep of a file** over a reader that keeps up `R`. A failure leaves a file as fine as it was. -/
def upkeep {R : LineReader → Prop} (hR : LineReader.Lasts R) : Upkeep File where
  Good := Good
  Fine := Fine Good R
  Failed _ := Fine Good R
  closed := hG
  take := by
    rintro ⟨⟨reader, name, place, returned⟩, log⟩ ⟨hret, hr⟩
    change Issue _ _ (take _)
    unfold take
    cases returned with
    | cons g gs =>
      exact ⟨hG.admitted (hret g List.mem_cons_self), fun k hk => hret k (List.mem_cons_of_mem g hk), hr⟩
    | nil =>
      change Issue _ _ (readGlyph _)
      unfold readGlyph
      dsimp only
      cases hread : reader.read with
      | ok o r =>
        have hr' := hR.ok hr hread
        cases o with
        | none => exact ⟨nofun, nofun, hr'⟩
        | some c =>
          have hc : c ≠ '\r' := fun hc => LineReader.read_ne_return _ _ _ hread (congrArg some hc)
          exact ⟨hG.admitted (hG.plain name place hc), nofun, hr'⟩
      | error e r => exact ⟨nofun, hR.error hr hread⟩
  giveBack := by
    intro g hg s hs
    change Issue _ _ (giveBack g s)
    rw [giveBack_ok (hG.placed hg).isEof]
    refine ⟨fun k hk => ?_, hs.2⟩
    rcases List.mem_cons.1 hk with rfl | hk
    · exact hg
    · exact hs.1 k hk

theorem pops {R : LineReader → Prop} (hR : LineReader.Lasts R) : (upkeep hG hR).Pops fun _ => True :=
  fun _ hh _ => ⟨_, giveBack_ok (hG.placed hh).isEof _, rfl⟩

include hG in
theorem take_retakes {s : Logged File} (h : s.state.Fine Good LineReader.Flows) :
    Retakes Good (Fine Good LineReader.Flows) (fun _ => Fine Good LineReader.Flows) take s := by
  have hpop (u : Logged File) (h : Glyph) (hh : Good h) : ∃ v, giveBack h u = .ok () v ∧ take v = .ok h u :=
    ⟨_, giveBack_ok (hG.placed hh).isEof u, rfl⟩
  obtain ⟨⟨reader, name, place, returned⟩, log⟩ := s
  obtain ⟨hret, hflow⟩ := h
  cases returned with
  | cons g gs =>
    have hg : Good g := hret g List.mem_cons_self
    have hrun : take ⟨⟨reader, name, place, g :: gs⟩, log⟩ = .ok g ⟨⟨reader, name, place, gs⟩, log⟩ := rfl
    refine .char hrun hg ⟨fun k hk => ?_, hflow⟩ (location_cons (hG.placed hg) _ _ _ _) fun h hh _ =>
      hpop _ h hh
    exact hret k (List.mem_cons_of_mem g hk)
  | nil =>
    have hread (r : LineReader) : take ⟨⟨r, name, place, []⟩, log⟩ = readGlyph ⟨⟨r, name, place, []⟩, log⟩ := rfl
    cases LineReader.read_rests hflow with
    | @more c r hr hf =>
      have hrun : take ⟨⟨reader, name, place, []⟩, log⟩ =
          .ok (.plain c name place) ⟨⟨r, name, place.next c, []⟩, log⟩ := by
        rw [hread, readGlyph]
        simp only [hr]
      have hc : c ≠ '\r' := fun hc => LineReader.read_ne_return _ _ _ hr (congrArg some hc)
      exact .char hrun (hG.plain name place hc) ⟨nofun, hf⟩ rfl fun h hh _ => hpop _ h hh
    | @ended r hr hf hagain =>
      have hend {r₁ r₂ : LineReader} (hr : r₁.read = .ok none r₂) : take ⟨⟨r₁, name, place, []⟩, log⟩ =
          .ok (.eof name []) ⟨⟨r₂, name, place, []⟩, log⟩ := by
        rw [hread, readGlyph]
        simp only [hr]
      exact .ended (hend hr) nofun rfl ⟨nofun, hf⟩ (hend hagain)
    | @failed e r hr hf hagain =>
      have hfail {r₁ r₂ : LineReader} (hr : r₁.read = .error e r₂) : take ⟨⟨r₁, name, place, []⟩, log⟩ =
          .error (e.locate place) ⟨⟨r₂, name, place, []⟩, log⟩ := by
        rw [hread, readGlyph]
        simp only [hr]
      exact .failed (hfail hr) ⟨nofun, hf⟩ (hfail hagain)

/-- **Looking at the next glyph of a file changes nothing.** -/
theorem steady : (upkeep hG LineReader.lasts_flows).Steady where
  take hs := take_retakes hG hs
  back hh hv := by
    cases hv.symm.trans (giveBack_ok (hG.placed hh).isEof _)
    exact location_cons (hG.placed hh) _ _ _ _

end File

/-! ## Stages -/

/-- The glyph `g` comes next, and when it is given back, the source is left as it was. -/
structure Source.Peeks {σ : Type} [Source σ] (s : Logged σ) (g : Glyph) (u : Logged σ) : Prop where
  take : Source.take s = .ok g u
  back : Source.restore g u = .ok () s

namespace Trigraph

variable {σ : Type} [Source σ]

/-- After two question marks the source has nothing that completes a trigraph. -/
def SparesMarks (s : Logged σ) : Prop := ∃ g u, Source.Peeks s g u ∧ g.value?.bind replacement? = none

/-- After a question mark the source has nothing that makes a trigraph of it. -/
def SparesMark (s : Logged σ) : Prop := ∃ g u, Source.Peeks s g u ∧ (g.is '?' = true → SparesMarks u)

/-- How the glyph `g` comes out of the stage. -/
inductive Replaced (s : Logged σ) (g : Glyph) (v : Logged σ) : Prop
  /-- It is not a question mark. -/
  | other (run : Source.take s = .ok g v) (plain : g.is '?' = false)
  /-- It is a question mark that begins no trigraph. What was looked at after it comes next. -/
  | mark {h : Glyph} {u w x : Logged σ} (run : Source.take s = .ok g u) (mark : g.is '?' = true)
    (look : Source.take u = .ok h w) (peeks : Source.Peeks v h x) (spares : h.is '?' = true → SparesMarks x)
  /-- It stands for a trigraph, of which `first` is the first character. -/
  | trigraph {first : Glyph} {u : Logged σ} {rest : List Glyph} {c d : Char} (run : Source.take s = .ok first u)
    (mark : first.is '?' = true) (replaced : replacement? d = some c) (made : g = .merged c (first :: rest))

end Trigraph

namespace Upkeep.Steady

open Source (Peeks)
open Trigraph (SparesMark SparesMarks Replaced)

variable {σ : Type} [Source σ] {U : Upkeep σ} (S : U.Steady) {s u v w : Logged σ} {g : Glyph}

theorem peeks_of_giveBack (hv : Source.giveBack g u = .ok () v) (ht : Source.take v = .ok g u)
    (hg : g.isEof = false) : Peeks v g u :=
  ⟨ht, by rw [Source.restore, hg, if_neg Bool.false_ne_true, hv]⟩

include S in
/-- A glyph that was looked at comes next, be it a character or the end. -/
theorem reread (hs : U.Fine s.state) (hu : Source.take s = .ok g u) :
    ∃ w, Source.restore g u = .ok () w ∧ Peeks w g u ∧ U.Fine w.state := by
  cases S.take hs with
  | char hu' hgood hf _ hagain =>
    cases hu.symm.trans hu'
    obtain ⟨v, hv, hv'⟩ := hagain g hgood rfl
    have hpeeks := peeks_of_giveBack hv hv' (U.closed.placed hgood).isEof
    exact ⟨v, hpeeks.back, hpeeks, (U.giveBack hgood).ok hf hv⟩
  | ended hu' _ heof hf hagain =>
    cases hu.symm.trans hu'
    have hback : Source.restore g u = .ok () u := by
      rw [Source.restore, heof, if_pos rfl]
      rfl
    exact ⟨u, hback, ⟨hagain, hback⟩, hf⟩
  | failed hu' => cases hu.symm.trans hu'

theorem replaceNext_of_ne (hu : Source.take s = .ok g u) (hg : g.is '?' = false) :
    Trigraph.replaceNext s = .ok g u := by
  rw [Trigraph.replaceNext, bind_of_ok hu, hg]
  rfl

theorem replaceNext_of_mark {h : Glyph} {v : Logged σ} (hu : Source.take s = .ok g u) (hg : g.is '?' = true)
    (hv : Source.take u = .ok h v) (hh : h.is '?' = false) (hw : Source.restore h v = .ok () w) :
    Trigraph.replaceNext s = .ok g w := by
  rw [Trigraph.replaceNext, bind_of_ok hu, hg, if_pos rfl, bind_of_ok hv, hh, if_neg Bool.false_ne_true,
    bind_of_ok hw]
  rfl

theorem replaceNext_of_marks {h : Glyph} {v : Logged σ} (hu : Source.take s = .ok g u) (hg : g.is '?' = true)
    (hv : Source.take u = .ok h v) (hh : h.is '?' = true) :
    Trigraph.replaceNext s = Trigraph.afterMarks g h v := by
  rw [Trigraph.replaceNext, bind_of_ok hu, hg, if_pos rfl, bind_of_ok hv, hh, if_pos rfl]

theorem afterMarks_of_none {h k : Glyph} {x : Logged σ} (hu : Source.take s = .ok k u)
    (hk : k.value?.bind Trigraph.replacement? = none) (hw : Source.restore k u = .ok () w)
    (hx : Source.giveBack h w = .ok () x) : Trigraph.afterMarks g h s = .ok g x := by
  rw [Trigraph.afterMarks, bind_of_ok hu, hk]
  dsimp only
  rw [bind_of_ok hw, bind_of_ok hx]
  rfl

theorem is_of_value? {h : Glyph} (hv : h.value? = g.value?) (c : Char) : h.is c = g.is c := by
  rw [Glyph.is, Glyph.is, hv]

/-- A question mark that is given back where it makes no trigraph comes again, and nothing else changes. -/
theorem replaceNext_of_sparesMark (hw : Source.take w = .ok g s) (hq : g.is '?' = true) (hs : SparesMark s) :
    Trigraph.replaceNext w = .ok g s := by
  obtain ⟨h, u, hpeeks, hmarks⟩ := hs
  cases hh : h.is '?' with
  | false => exact replaceNext_of_mark hw hq hpeeks.take hh hpeeks.back
  | true =>
    obtain ⟨k, x, hpeeks', hk⟩ := hmarks hh
    have hback : Source.giveBack h u = .ok () s := by
      rw [← hpeeks.back, Source.restore, Glyph.isEof_eq_false_of_value? (Glyph.is_iff.1 hh), if_neg Bool.false_ne_true]
    rw [replaceNext_of_marks hw hq hpeeks.take hh, afterMarks_of_none hpeeks'.take hk hpeeks'.back hback]

include S in
/-- A character starts where the source stands. -/
theorem start_of_isEof (hs : U.Fine s.state) (ht : Source.take s = .ok g u) (hg : g.isEof = false) :
    g.start? = some (Source.location s.state) := by
  cases S.take hs with
  | char run _ _ start => cases ht.symm.trans run; exact start
  | ended run _ eof => cases ht.symm.trans run; rw [hg] at eof; cases eof
  | failed run => cases ht.symm.trans run

include S in
/-- What the stage makes of the glyphs after two question marks. -/
theorem replaces_marks (hpop : U.Pops fun _ => True) {first second : Glyph} {s₁ s₂ : Logged σ}
    (h₁ : Source.take s = .ok first s₁) (hq₁ : first.is '?' = true) (hg₁ : U.Good first)
    (h₂ : Source.take s₁ = .ok second s₂) (hq₂ : second.is '?' = true) (hg₂ : U.Good second)
    (hs₂ : U.Fine s₂.state) :
    (∃ g v, Trigraph.replaceNext s = .ok g v ∧ Replaced s g v) ∨
      ∃ e u, Trigraph.replaceNext s = .error e u ∧ U.Failed e u.state ∧ Source.take u = .error e u := by
  have hmarks := replaceNext_of_marks h₁ hq₁ h₂ hq₂
  by_cases hthird : ∃ third s₃, Source.take s₂ = .ok third s₃
  · obtain ⟨third, s₃, h₃⟩ := hthird
    obtain ⟨hg₃, hs₃⟩ := U.take.ok hs₂ h₃
    cases hr : third.value?.bind Trigraph.replacement? with
    | some c =>
      obtain ⟨d, hd, hc⟩ := Option.bind_eq_some_iff.1 hr
      have hall : ∀ g ∈ [first, second, third], U.Good g := by
        simpa using ⟨hg₁, hg₂, hg₃.of_value? hd⟩
      have hm := Glyph.merge_eq c (List.cons_ne_nil first [second, third]) fun g hg => U.closed.placed (hall g hg)
      have hrun : Trigraph.replaceNext s = .ok (.merged c [first, second, third])
          ⟨s₃.state, .trigraph (Glyph.merged c [first, second, third]).raw c :: s₃.log⟩ := by
        rw [hmarks, Trigraph.afterMarks, bind_of_ok h₃, hr]
        dsimp only
        rw [hm]
        rfl
      exact .inl ⟨_, _, hrun, .trigraph h₁ hq₁ hc rfl⟩
    | none =>
      obtain ⟨w₃, hw₃, hpeeks₃, hf₃⟩ := S.reread hs₂ h₃
      obtain ⟨w, hw, hagain⟩ := hpop hf₃ hg₂ trivial
      have hrun : Trigraph.replaceNext s = .ok first w := by
        rw [hmarks, afterMarks_of_none h₃ hr hw₃ hw]
      exact .inl ⟨first, w, hrun, .mark h₁ hq₁ h₂ (peeks_of_giveBack hw hagain (U.closed.placed hg₂).isEof)
        fun _ => ⟨third, s₃, hpeeks₃, hr⟩⟩
  · cases S.take hs₂ with
    | char h₃ => exact absurd ⟨_, _, h₃⟩ hthird
    | ended h₃ => exact absurd ⟨_, _, h₃⟩ hthird
    | failed h₃ hleft hagain => exact .inr ⟨_, _, by rw [hmarks]; exact bind_of_error h₃, hleft, hagain⟩

include S in
/-- **What can come of looking for a trigraph**: a glyph in one of three ways, or a failure of the source, which comes
again. -/
theorem replaces (hpop : U.Pops fun _ => True) (hs : U.Fine s.state) :
    (∃ g v, Trigraph.replaceNext s = .ok g v ∧ Replaced s g v) ∨
      ∃ e u, Trigraph.replaceNext s = .error e u ∧ U.Failed e u.state ∧ Source.take u = .error e u := by
  by_cases hfirst : ∃ first s₁, Source.take s = .ok first s₁
  · obtain ⟨first, s₁, h₁⟩ := hfirst
    obtain ⟨hg₁, hs₁⟩ := U.take.ok hs h₁
    cases hq₁ : first.is '?' with
    | false => exact .inl ⟨first, s₁, replaceNext_of_ne h₁ hq₁, .other h₁ hq₁⟩
    | true =>
      by_cases hsecond : ∃ second s₂, Source.take s₁ = .ok second s₂
      · obtain ⟨second, s₂, h₂⟩ := hsecond
        obtain ⟨hg₂, hs₂⟩ := U.take.ok hs₁ h₂
        cases hq₂ : second.is '?' with
        | true => exact S.replaces_marks hpop h₁ hq₁ (hg₁.of_is hq₁) h₂ hq₂ (hg₂.of_is hq₂) hs₂
        | false =>
          obtain ⟨w, hw, hpeeks, -⟩ := S.reread hs₁ h₂
          exact .inl ⟨first, w, replaceNext_of_mark h₁ hq₁ h₂ hq₂ hw,
            .mark h₁ hq₁ h₂ hpeeks fun h => by rw [hq₂] at h; cases h⟩
      · cases S.take hs₁ with
        | char h₂ => exact absurd ⟨_, _, h₂⟩ hsecond
        | ended h₂ => exact absurd ⟨_, _, h₂⟩ hsecond
        | failed h₂ hleft hagain =>
          refine .inr ⟨_, _, ?_, hleft, hagain⟩
          rw [Trigraph.replaceNext, bind_of_ok h₁, hq₁, if_pos rfl, bind_of_error h₂]
  · cases S.take hs with
    | char h₁ => exact absurd ⟨_, _, h₁⟩ hfirst
    | ended h₁ => exact absurd ⟨_, _, h₁⟩ hfirst
    | failed h₁ hleft hagain => exact .inr ⟨_, _, bind_of_error h₁, hleft, hagain⟩

include S in
theorem replaceNext_retakes (hpop : U.Pops fun _ => True) (hs : U.Fine s.state) :
    Retakes U.Good U.Fine U.Failed Trigraph.replaceNext s := by
  rcases S.replaces hpop hs with ⟨g, v, hrun, hreplaced⟩ | ⟨e, u, hrun, hleft, hagain⟩
  · obtain ⟨hgood, hfine⟩ := U.replaceNext.ok hs hrun
    cases hreplaced with
    | other run plain =>
      cases S.take hs with
      | char run' good _ start again =>
        cases run.symm.trans run'
        refine .char hrun good hfine start fun h hh hv => ?_
        obtain ⟨w, hw, htake⟩ := again h hh hv
        exact ⟨w, hw, replaceNext_of_ne htake ((is_of_value? hv _).trans plain)⟩
      | ended run' good eof _ again =>
        cases run.symm.trans run'
        exact .ended hrun good eof hfine (replaceNext_of_ne again plain)
      | failed run' => cases run.symm.trans run'
    | mark run mark look peeks spares =>
      -- the question mark comes again, and so does what was looked at after it
      have heof := Glyph.isEof_eq_false_of_value? (Glyph.is_iff.1 mark)
      refine .char hrun (hgood.of_is mark) hfine (S.start_of_isEof hs run heof) fun h hh hv => ?_
      obtain ⟨w, hw, htake⟩ := hpop hfine hh trivial
      exact ⟨w, hw, replaceNext_of_sparesMark htake ((is_of_value? hv _).trans mark) ⟨_, _, peeks, spares⟩⟩
    | trigraph run mark replaced made =>
      -- what stands for a trigraph is no question mark, and comes again as it is
      have hstart := S.start_of_isEof hs run (Glyph.isEof_eq_false_of_value? (Glyph.is_iff.1 mark))
      subst made
      refine .char hrun (hgood.of_value? rfl) hfine hstart fun h hh hv => ?_
      obtain ⟨w, hw, htake⟩ := hpop hfine hh trivial
      exact ⟨w, hw, replaceNext_of_ne htake ((is_of_value? hv _).trans (Trigraph.is_mark_merged replaced))⟩
  · exact .failed hrun hleft (bind_of_error hagain)

omit [Source σ] in
theorem trigraph_onBelow_ok {α : Type} {m : ScanM σ α} {a : α} {x y : Logged σ} (b : Bool) (hx : m x = .ok a y) :
    Trigraph.onBelow m ⟨⟨x.state, b⟩, x.log⟩ = .ok a ⟨⟨y.state, b⟩, y.log⟩ := by
  rw [Trigraph.onBelow, ScanM.onState, onPart, hx]

omit [Source σ] in
theorem trigraph_onBelow_error {α : Type} {m : ScanM σ α} {e : Fault} {x y : Logged σ} (b : Bool)
    (hx : m x = .error e y) :
    Trigraph.onBelow m ⟨⟨x.state, b⟩, x.log⟩ = .error e ⟨⟨y.state, b⟩, y.log⟩ := by
  rw [Trigraph.onBelow, ScanM.onState, onPart, hx]

/-- What holds of the source below holds of the stage. -/
theorem trigraph_retakes {m : ScanM σ Glyph} {t : Logged (Trigraph σ)}
    (h : Retakes U.Good U.Fine U.Failed m ⟨t.state.below, t.log⟩)
    (hm : ∀ t' : Logged (Trigraph σ), t'.state.enabled = t.state.enabled →
      Source.take t' = Trigraph.onBelow m t') :
    Retakes U.trigraph.Good U.trigraph.Fine U.trigraph.Failed Source.take t := by
  have hok {x : Logged σ} {y : Logged σ} {g : Glyph} (hx : m x = .ok g y) :
      Source.take (⟨⟨x.state, t.state.enabled⟩, x.log⟩ : Logged (Trigraph σ)) =
        .ok g ⟨⟨y.state, t.state.enabled⟩, y.log⟩ := by
    rw [hm ⟨⟨x.state, t.state.enabled⟩, x.log⟩ rfl, trigraph_onBelow_ok _ hx]
  have herr {x : Logged σ} {y : Logged σ} {e : Fault} (hx : m x = .error e y) :
      Source.take (⟨⟨x.state, t.state.enabled⟩, x.log⟩ : Logged (Trigraph σ)) =
        .error e ⟨⟨y.state, t.state.enabled⟩, y.log⟩ := by
    rw [hm ⟨⟨x.state, t.state.enabled⟩, x.log⟩ rfl, trigraph_onBelow_error _ hx]
  cases h with
  | char run good fine start again =>
    refine .char (hok run) good fine start fun h hh hv => ?_
    obtain ⟨v, hv₁, hv₂⟩ := again h hh hv
    exact ⟨⟨⟨v.state, t.state.enabled⟩, v.log⟩, trigraph_onBelow_ok _ hv₁, hok hv₂⟩
  | ended run good eof fine again => exact .ended (hok run) good eof fine (hok again)
  | failed run left again => exact .failed (herr run) left (herr again)

include S in
/-- **Looking at the next glyph of a stage for trigraphs changes nothing.** -/
theorem trigraph (hpop : U.Pops fun _ => True) : U.trigraph.Steady where
  take {t} ht := by
    cases he : t.state.enabled with
    | true =>
      refine trigraph_retakes (S.replaceNext_retakes hpop ht) fun t' ht' => ?_
      change Trigraph.take t' = _
      rw [Trigraph.take, ht', he, if_pos rfl]
    | false =>
      refine trigraph_retakes (S.take ht) fun t' ht' => ?_
      change Trigraph.take t' = _
      rw [Trigraph.take, ht', he, if_neg Bool.false_ne_true]
  back {t v h} hh hv := by
    change Trigraph.giveBack h t = _ at hv
    unfold Trigraph.giveBack Trigraph.onBelow ScanM.onState onPart at hv
    split at hv
    · next hb =>
      cases hv
      exact S.back hh hb
    · cases hv

theorem trigraph_pops (hpop : U.Pops fun _ => True) : U.trigraph.Pops fun g => g.is '?' = false := by
  intro t h ht hh hq
  obtain ⟨v, hv₁, hv₂⟩ := hpop (s := ⟨t.state.below, t.log⟩) ht hh trivial
  refine ⟨⟨⟨v.state, t.state.enabled⟩, v.log⟩, trigraph_onBelow_ok _ hv₁, ?_⟩
  change Trigraph.take _ = _
  unfold Trigraph.take
  split
  · exact trigraph_onBelow_ok _ (replaceNext_of_ne hv₂ hq)
  · exact trigraph_onBelow_ok _ hv₂

/-! ## Splices -/

/-- Delete pairs until there is none, with the pairs `removed` deleted before. -/
abbrev spliceFrom (removed : List Glyph) : ScanM σ (List Glyph × Glyph) :=
  loop Source.measure Splice.spliceTurn Splice.spliceTurn_draws removed

theorem spliceFrom_of_ne {removed : List Glyph} (hu : Source.take s = .ok g u) (hg : g.is '\\' = false) :
    spliceFrom removed s = .ok (removed.reverse, g) u := by
  have hturn : Splice.spliceTurn removed s = .ok (.done (removed.reverse, g)) u := by
    rw [Splice.spliceTurn, bind_of_ok hu, hg]
    rfl
  rw [spliceFrom, loop_eq, hturn]

theorem spliceFrom_of_lone {removed : List Glyph} {h : Glyph} {v : Logged σ} (hu : Source.take s = .ok g u)
    (hg : g.is '\\' = true) (hv : Source.take u = .ok h v) (hh : h.is '\n' = false)
    (hw : Source.restore h v = .ok () w) : spliceFrom removed s = .ok (removed.reverse, g) w := by
  have hturn : Splice.spliceTurn removed s = .ok (.done (removed.reverse, g)) w := by
    rw [Splice.spliceTurn, bind_of_ok hu, hg, if_pos rfl, bind_of_ok hv, hh, if_neg Bool.false_ne_true,
      bind_of_ok hw]
    rfl
  rw [spliceFrom, loop_eq, hturn]

theorem spliceFrom_of_failed {removed : List Glyph} {e : Fault} (hu : Source.take s = .error e u) :
    spliceFrom removed s = .error e u := by
  rw [spliceFrom, loop_eq, Splice.spliceTurn, bind_of_error hu]

/-- Where the pairs that were deleted start, or else where the source stands. -/
def spliceStart (removed : List Glyph) (s : σ) : Option Location :=
  match removed.reverse with
  | [] => some (Source.location s)
  | r :: _ => r.start?

/-- What can come of deleting pairs. -/
inductive Splices (U : Upkeep σ) (removed : List Glyph) (s : Logged σ) : Prop
  /-- A character after some pairs; if a character that shows the same is given back, that one comes next. -/
  | char {rs : List Glyph} {k : Glyph} {u : Logged σ} (run : spliceFrom removed s = .ok (rs, k) u)
    (all : ∀ r ∈ rs, U.Good r) (good : U.Good k) (fine : U.Fine u.state)
    (start : Glyph.firstStart? (rs ++ [k]) = spliceStart removed s.state)
    (again : ∀ h, U.Good h → h.value? = k.value? →
      ∃ v, Source.giveBack h u = .ok () v ∧ spliceFrom [] v = .ok ([], h) u)
  /-- The end after some pairs. -/
  | ended {rs : List Glyph} {k : Glyph} {u : Logged σ} (run : spliceFrom removed s = .ok (rs, k) u)
    (all : ∀ r ∈ rs, U.Good r) (good : k.Admitted U.Good) (eof : k.isEof = true) (fine : U.Fine u.state)
    (again : spliceFrom [] u = .ok ([], k) u)
  /-- A failure. -/
  | failed {e : Fault} {u : Logged σ} (run : spliceFrom removed s = .error e u) (left : U.Failed e u.state)
    (again : spliceFrom [] u = .error e u)

theorem firstStart?_spliceStart {removed : List Glyph} {l : σ} {k : Glyph}
    (hk : k.start? = some (Source.location l)) (gs : List Glyph) :
    Glyph.firstStart? (removed.reverse ++ k :: gs) = spliceStart removed l := by
  unfold spliceStart
  cases removed.reverse with
  | nil => exact hk
  | cons r rs => rfl

theorem spliceStart_pair {removed : List Glyph} {l l' : σ} {k after : Glyph}
    (hk : k.start? = some (Source.location l)) :
    spliceStart (after :: k :: removed) l' = spliceStart removed l := by
  rw [← firstStart?_spliceStart hk [after]]
  unfold spliceStart
  rw [List.reverse_cons, List.reverse_cons, List.append_assoc]
  cases removed.reverse with
  | nil => rfl
  | cons r rs => rfl

include S in
theorem splices (hpop : U.Pops fun g => g.is '?' = false) (removed : List Glyph) (hs : U.Fine s.state)
    (hr : ∀ r ∈ removed, U.Good r) : Splices U removed s := by
  induction removed, s using loop_induct (Splice.spliceTurn_draws (σ := σ)) with
  | step removed s ih =>
    have hrev : ∀ r ∈ removed.reverse, U.Good r := fun r hm => hr r (List.mem_reverse.1 hm)
    cases S.take hs with
    | failed h₁ hleft hagain =>
      exact .failed (spliceFrom_of_failed h₁) hleft (spliceFrom_of_failed hagain)
    | @ended g s₁ h₁ hg heof hs₁ hagain =>
      have hb : g.is '\\' = false := by
        rw [Glyph.is, Glyph.value?_eq_none_iff.2 heof]
        rfl
      exact .ended (spliceFrom_of_ne h₁ hb) hrev hg heof hs₁ (spliceFrom_of_ne hagain hb)
    | @char g s₁ h₁ hg hs₁ hloc hagain =>
      cases hb : g.is '\\' with
      | false =>
        refine .char (spliceFrom_of_ne h₁ hb) hrev hg hs₁ (firstStart?_spliceStart hloc []) fun h hh hv => ?_
        obtain ⟨v, hv₁, hv₂⟩ := hagain h hh hv
        exact ⟨v, hv₁, spliceFrom_of_ne hv₂ ((is_of_value? hv _).trans hb)⟩
      | true =>
        by_cases hafter : ∃ after s₂, Source.take s₁ = .ok after s₂
        · obtain ⟨after, s₂, h₂⟩ := hafter
          obtain ⟨hg₂, hs₂⟩ := U.take.ok hs₁ h₂
          cases hn : after.is '\n' with
          | false =>
            -- a backslash that begins no pair: what was looked at after it comes next
            obtain ⟨w, hw, hpeeks, hfw⟩ := S.reread hs₁ h₂
            refine .char (spliceFrom_of_lone h₁ hb h₂ hn hw) hrev hg hfw (firstStart?_spliceStart hloc [])
              fun h hh hv => ?_
            have hq : h.is '?' = false := by
              rw [Glyph.is, hv, Glyph.is_iff.1 hb]
              decide
            obtain ⟨v, hv₁, hv₂⟩ := hpop hfw hh hq
            exact ⟨v, hv₁, spliceFrom_of_lone hv₂ ((is_of_value? hv _).trans hb) hpeeks.take hn hw⟩
          | true =>
            have hturn : Splice.spliceTurn removed s = .ok (.again (after :: g :: removed))
                ⟨s₂.state, .splice (Source.location s₂.state) :: s₂.log⟩ := by
              rw [Splice.spliceTurn, bind_of_ok h₁, hb, if_pos rfl, bind_of_ok h₂, hn, if_pos rfl]
              rfl
            have hnext : spliceFrom removed s = spliceFrom (after :: g :: removed)
                ⟨s₂.state, .splice (Source.location s₂.state) :: s₂.log⟩ := by
              conv => lhs; rw [spliceFrom, loop_eq, hturn]
            have hall : ∀ r ∈ after :: g :: removed, U.Good r := by
              simpa using ⟨hg₂.of_is hn, hg, hr⟩
            cases ih _ _ hturn hs₂ hall with
            | char run all good fine start again =>
              refine .char (hnext.trans run) all good fine ?_ again
              rw [start, spliceStart_pair hloc]
            | ended run all good eof fine again => exact .ended (hnext.trans run) all good eof fine again
            | failed run left again => exact .failed (hnext.trans run) left again
        · cases S.take hs₁ with
          | char h₂ => exact absurd ⟨_, _, h₂⟩ hafter
          | ended h₂ => exact absurd ⟨_, _, h₂⟩ hafter
          | failed h₂ hleft hagain₂ =>
            refine .failed ?_ hleft (spliceFrom_of_failed hagain₂)
            rw [spliceFrom, loop_eq, Splice.spliceTurn, bind_of_ok h₁, hb, if_pos rfl, bind_of_error h₂]

section Take

variable {rs : List Glyph} {k : Glyph} {t : Logged (Splice σ)}

omit [Source σ] in
theorem splice_onBelow_ok {α : Type} {m : ScanM σ α} {a : α} (hu : m ⟨t.state.below, t.log⟩ = .ok a u) :
    Splice.onBelow m t = .ok a ⟨⟨u.state, t.state.ending⟩, u.log⟩ := by
  rw [Splice.onBelow, ScanM.onState, onPart, hu]

omit [Source σ] in
theorem splice_onBelow_error {α : Type} {m : ScanM σ α} {e : Fault}
    (hu : m ⟨t.state.below, t.log⟩ = .error e u) :
    Splice.onBelow m t = .error e ⟨⟨u.state, t.state.ending⟩, u.log⟩ := by
  rw [Splice.onBelow, ScanM.onState, onPart, hu]

/-- The glyph `g` is `k` with the pairs before it. -/
def Decorates (rs : List Glyph) (k g : Glyph) : Prop := (rs = [] ∧ g = k) ∨ (rs ≠ [] ∧ Glyph.splice rs k = .ok g)

omit [Source σ] in
theorem decorate_ok (h : Decorates rs k g) (t : Logged (Splice σ)) : Splice.decorate rs k t = .ok g t := by
  unfold Splice.decorate
  rcases h with ⟨rfl, rfl⟩ | ⟨hne, hs⟩
  · rfl
  · rw [if_neg (by simpa using hne), hs]
    rfl

theorem take_of_char (hu : Splice.spliceAll ⟨t.state.below, t.log⟩ = .ok (rs, k) u) (hd : Decorates rs k g)
    (hk : k.isEof = false) (hg : g.isEof = false) :
    Source.take t = .ok g ⟨⟨u.state, t.state.ending⟩, u.log⟩ := by
  change Splice.take t = _
  rw [Splice.take, bind_of_ok (splice_onBelow_ok hu)]
  simp only [hk]
  change (Splice.decorate rs k >>= fun g => Splice.remember g >>= fun _ => pure g) _ = _
  rw [bind_of_ok (decorate_ok hd _)]
  simp only [Splice.remember, hg, Bool.false_eq_true, dite_false]
  rfl

theorem take_of_ending {e : { g : Glyph // g.isEof = true }}
    (hu : Splice.spliceAll ⟨t.state.below, t.log⟩ = .ok (rs, k) u) (hk : k.isEof = true)
    (he : t.state.ending = some e) : Source.take t = .ok e.1 ⟨⟨u.state, some e⟩, u.log⟩ := by
  change Splice.take t = _
  rw [Splice.take, bind_of_ok (splice_onBelow_ok hu), he]
  simp only [hk]
  rfl

theorem take_of_end (hu : Splice.spliceAll ⟨t.state.below, t.log⟩ = .ok (rs, k) u) (hd : Decorates rs k g)
    (hk : k.isEof = true) (hg : g.isEof = true) (he : t.state.ending = none) :
    Source.take t = .ok g ⟨⟨u.state, some ⟨g, hg⟩⟩, u.log⟩ := by
  change Splice.take t = _
  rw [Splice.take, bind_of_ok (splice_onBelow_ok hu), he]
  have hrest : (Splice.decorate rs k >>= fun g => Splice.remember g >>= fun _ => pure g)
      (⟨⟨u.state, none⟩, u.log⟩ : Logged (Splice σ)) = .ok g ⟨⟨u.state, some ⟨g, hg⟩⟩, u.log⟩ := by
    rw [bind_of_ok (decorate_ok hd _)]
    simp only [Splice.remember, hg, dite_true]
    rfl
  simp only [hk]
  exact hrest

theorem take_of_failed {e : Fault} (hu : Splice.spliceAll ⟨t.state.below, t.log⟩ = .error e u) :
    Source.take t = .error e ⟨⟨u.state, t.state.ending⟩, u.log⟩ := by
  change Splice.take t = _
  rw [Splice.take, bind_of_error (splice_onBelow_error hu)]

end Take

/-- The pairs before a character make it another that shows the same, and starts where they start. -/
theorem exists_decorated {rs : List Glyph} {k : Glyph} (hr : ∀ r ∈ rs, U.Good r) (hk : U.Good k) :
    ∃ g, Decorates rs k g ∧ U.Good g ∧ g.value? = k.value? ∧ g.start? = Glyph.firstStart? (rs ++ [k]) := by
  by_cases hne : rs = []
  · exact ⟨k, .inl ⟨hne, rfl⟩, hk, rfl, by rw [hne]; rfl⟩
  · obtain ⟨c, hc⟩ := (U.closed.placed hk).exists_value
    have hall : ∀ r ∈ rs ++ [k], U.Good r := by
      intro r hm
      rcases List.mem_append.1 hm with hm | hm
      · exact hr r hm
      · rw [List.mem_singleton.1 hm]
        exact hk
    refine ⟨.merged c (rs ++ [k]), .inr ⟨hne, ?_⟩, U.closed.merged (by simp) hall (.inr ⟨k, by simp, hc⟩), hc.symm, rfl⟩
    rw [Glyph.splice, hc]
    exact Glyph.merge_eq c (by simp) fun r hm => U.closed.placed (hall r hm)

theorem exists_decorated_end {rs : List Glyph} {k : Glyph} (hr : ∀ r ∈ rs, U.Good r) (hk : k.Admitted U.Good)
    (heof : k.isEof = true) : ∃ g, Decorates rs k g ∧ g.Admitted U.Good ∧ g.isEof = true := by
  by_cases hne : rs = []
  · exact ⟨k, .inl ⟨hne, rfl⟩, hk, heof⟩
  · refine ⟨.eof k.file? rs, .inr ⟨hne, ?_⟩, hr, rfl⟩
    rw [Glyph.splice, Glyph.value?_eq_none_iff.2 heof]
    change Glyph.endAfter _ _ = _
    rw [Glyph.endAfter, Glyph.checkParts_of_placed hne fun r hm => U.closed.placed (hr r hm)]
    rfl

include S in
/-- **Looking at the next glyph of a stage for splices changes nothing.** -/
theorem splice (hpop : U.Pops fun g => g.is '?' = false) : U.splice.Steady where
  take {t} ht := by
    obtain ⟨ht, hend⟩ := ht
    cases S.splices hpop (s := ⟨t.state.below, t.log⟩) [] ht nofun with
    | @char rs k u run all good fine start again =>
      obtain ⟨g, hd, hg, hv, hstart⟩ := exists_decorated all good
      have hk := (U.closed.placed good).isEof
      have hrun := take_of_char run hd hk (U.closed.placed hg).isEof
      refine .char hrun hg ⟨fine, hend⟩ (hstart.trans start) fun h hh hhv => ?_
      obtain ⟨v, hv₁, hv₂⟩ := again h hh (hhv.trans hv)
      refine ⟨⟨⟨v.state, t.state.ending⟩, v.log⟩, splice_onBelow_ok (t := ⟨⟨u.state, _⟩, u.log⟩) hv₁, ?_⟩
      have heof := (U.closed.placed hh).isEof
      exact take_of_char (t := ⟨⟨v.state, _⟩, v.log⟩) hv₂ (.inl ⟨rfl, rfl⟩) heof heof
    | @ended rs k u run all good eof fine again =>
      cases he : t.state.ending with
      | some e =>
        have hrun := take_of_ending run eof he
        refine .ended hrun (hend e he) e.2 ⟨fine, ?_⟩ ?_
        · rintro _ ⟨⟩
          exact hend e he
        · exact take_of_ending (t := ⟨⟨u.state, some e⟩, u.log⟩) again eof rfl
      | none =>
        obtain ⟨g, hd, hg, hgeof⟩ := exists_decorated_end all good eof
        refine .ended (take_of_end run hd eof hgeof he) hg hgeof ⟨fine, ?_⟩ ?_
        · rintro _ ⟨⟩
          exact hg
        · exact take_of_ending (t := ⟨⟨u.state, some ⟨g, hgeof⟩⟩, u.log⟩) again eof rfl
    | @failed e u run left again =>
      exact .failed (take_of_failed run) ⟨left, hend⟩ (take_of_failed (t := ⟨⟨u.state, _⟩, u.log⟩) again)
  back {t v h} hh hv := by
    change Splice.giveBack h t = _ at hv
    unfold Splice.giveBack Splice.onBelow ScanM.onState onPart at hv
    split at hv
    · next hb =>
      cases hv
      exact S.back hh hb
    · cases hv

end Upkeep.Steady

/-! ## The phases -/

namespace Phases

variable {Good : Glyph → Prop} (hG : Glyph.Closed Good)

/-- **The upkeep of the phases over a file** with a reader that keeps up `R`. -/
def upkeep {R : LineReader → Prop} (hR : LineReader.Lasts R) : Upkeep Phases := (File.upkeep hG hR).trigraph.splice

theorem fine_ofFile {R : LineReader → Prop} (hR : LineReader.Lasts R) {feed : Feed}
    (h : R (.ofFeed feed)) (name : Option String) (trigraphs : Bool) :
    (upkeep hG hR).Fine (ofFile (.ofFeed feed name) trigraphs) :=
  ⟨⟨nofun, h⟩, nofun⟩

/-- **Looking at the next glyph of the phases changes nothing.** -/
theorem steady : (upkeep hG LineReader.lasts_flows).Steady :=
  ((File.steady hG).trigraph (File.pops hG LineReader.lasts_flows)).splice
    (Upkeep.Steady.trigraph_pops (File.pops hG LineReader.lasts_flows))

end Phases

end Pretoken
