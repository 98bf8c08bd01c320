import Pretoken.Proofs.RoundTrip
import Pretoken.Proofs.Tape

/-!
# How far ahead a lexer looks

The stages and the scanner look ahead, and give back what they do not need. Who has seen the end of a
tape may have given back some glyphs, but no line feed is among them.

* `Tape.Calm`, `Taped.Calm`: no line feed is to come once the end has been seen.
* `Taped.take_calm`, `Taped.giveBack_calm`: taking a glyph and giving it back keep the tape calm.
* **`Taped.coupling`**: so does whatever a scanner does.
* `Taped.ledger`: the books of a tape. There is no end before it has been seen.
-/

namespace Pretoken

open ScanM (Gives)

/-! ## Line feeds -/

namespace Glyph

/-- The last of the glyphs is a line feed. -/
def EndsLine (gs : List Glyph) : Prop := ∃ before last, gs = before ++ [last] ∧ last.is '\n' = true

theorem EndsLine.append {gs : List Glyph} (h : EndsLine gs) (before : List Glyph) :
    EndsLine (before ++ gs) := by
  obtain ⟨first, last, rfl, hl⟩ := h
  exact ⟨before ++ first, last, (List.append_assoc _ _ _).symm, hl⟩

/-- The glyph has a place in the text, and if it is a line feed, then its text ends in one. -/
structure Sound (g : Glyph) : Prop where
  placed : g.Placed
  lineFeed : g.is '\n' = true → EndsLine g.leaves

theorem Placed.sound {g : Glyph} (h : g.Placed) (hn : g.is '\n' = false) : g.Sound :=
  ⟨h, fun hl => absurd (hn.symm.trans hl) (by decide)⟩

theorem sound_of_mem_inscribe {name : Option String} {l : Location} {cs : List Char} {g : Glyph}
    (h : g ∈ inscribe name l cs) : g.Sound := by
  induction cs generalizing l with
  | nil => cases h
  | cons c cs ih =>
    rcases List.mem_cons.1 h with rfl | h
    · exact ⟨placed_plain c name l, fun hn => ⟨[], _, rfl, hn⟩⟩
    · exact ih h

theorem Sound.attach {removed : List Glyph} {g : Glyph} (hr : ∀ r ∈ removed, r.Placed) (hg : g.Sound) :
    (attach removed g).Sound where
  placed := placed_attach hr hg.placed
  lineFeed hn := by
    rw [is, value?_attach] at hn
    rw [leaves_attach removed hg.placed]
    exact (hg.lineFeed hn).append _

theorem is_of_is {g : Glyph} {c d : Char} (h : g.is c = true) (hd : c ≠ d) : g.is d = false := by
  rw [Bool.eq_false_iff, Ne, is_iff, is_iff.1 h, Option.some.injEq]
  exact hd

end Glyph

/-! ## Tapes -/

namespace Tape

/-- No line feed is to come once the end has been seen. If `seen` says so, it has. -/
structure Calm (seen : Bool) (t : Tape) : Prop where
  seen : seen = true → t.spent = true
  sound : ∀ g ∈ t.coming, g.Sound
  quiet : t.spent = true → ∀ g ∈ t.coming, g.is '\n' = false

/-- The glyph `g` was taken last. An end shows that the end has been seen; a line feed shows that it has
not. -/
structure Took (seen : Bool) (g : Glyph) (t : Tape) : Prop where
  calm : t.Calm seen
  ended : g.isEof = true → t.spent = true
  sound : g.isEof = false → g.Sound
  quiet : t.spent = true → g.is '\n' = false

variable {seen : Bool} {t : Tape} {g : Glyph}

theorem Calm.took (h : t.Calm seen) (hp : g.Placed) (hn : g.is '\n' = false) : t.Took seen g where
  calm := h
  ended he := absurd (hp.isEof.symm.trans he) (by decide)
  sound _ := hp.sound hn
  quiet _ := hn

theorem calm_ofText (name : Option String) (cs : List Char) : (ofText name cs).Calm false where
  seen := nofun
  sound _ := Glyph.sound_of_mem_inscribe
  quiet := nofun

theorem take_calm : Gives (Calm seen) (Source.take : ScanM Tape Glyph) (Took seen) := by
  rintro ⟨⟨⟨coming, name, finish⟩, spent⟩, log⟩ hs
  cases coming with
  | nil => exact ⟨_, _, rfl, ⟨fun _ => rfl, nofun, nofun⟩, fun _ => rfl, nofun, fun _ => rfl⟩
  | cons g gs =>
    have hg : g.Sound := hs.sound g List.mem_cons_self
    refine ⟨g, _, rfl, ⟨hs.seen, fun h hh => hs.sound h (List.mem_cons_of_mem g hh), fun hq h hh => ?_⟩,
      fun he => absurd (hg.placed.isEof.symm.trans he) (by decide), fun _ => hg, fun hq => ?_⟩
    · exact hs.quiet hq h (List.mem_cons_of_mem g hh)
    · exact hs.quiet hq g List.mem_cons_self

theorem giveBack_calm (hg : g.isEof = false) :
    Gives (Took seen g) (Source.giveBack g : ScanM Tape Unit) fun _ => Calm seen := by
  change Gives _ (giveBack g) _
  rw [giveBack, hg, if_neg (by decide)]
  refine ScanM.change_gives fun t ht => ⟨ht.calm.seen, ?_, fun hq => ?_⟩
  · exact List.forall_mem_cons.2 ⟨ht.sound hg, ht.calm.sound⟩
  · exact List.forall_mem_cons.2 ⟨ht.quiet hq, ht.calm.quiet hq⟩

theorem restore_calm :
    Gives (Took seen g) (Source.restore g : ScanM Tape Unit) fun _ => Calm seen := by
  unfold Source.restore
  split
  · exact .pure _ fun t ht => ht.calm
  · next hg => exact giveBack_calm (Bool.eq_false_iff.2 hg)

end Tape

/-! ## The stages -/

namespace Trigraph

open Tape (Calm Took)

variable {seen : Bool}

theorem afterMarks_calm {first second : Glyph} (h₁ : first.Placed) (h₂ : second.Placed)
    (hq₁ : first.is '?' = true) (hq₂ : second.is '?' = true) :
    Gives (Calm seen) (afterMarks first second : ScanM Tape Glyph) (Took seen) := by
  refine Tape.take_calm.bind fun third => ?_
  split
  · next c hc =>
    obtain ⟨d, hd, hr⟩ := Option.bind_eq_some_iff.1 hc
    intro s hs
    have hp : ∀ p ∈ [first, second, third], p.Placed := by
      simpa using ⟨h₁, h₂, (hs.sound (Glyph.isEof_eq_false_of_value? hd)).placed⟩
    have hmerge := Glyph.merge_eq c (by simp) hp
    refine (ScanM.require_gives (P := Calm seen) hmerge).bind (fun g => .of_prop ?_) s hs.calm
    rintro rfl
    refine (ScanM.emit_gives (P := Calm seen) _).bind fun _ => .pure _ fun t ht => ?_
    refine ht.took (Glyph.placed_merged c (by simp) hp) ?_
    simpa [Glyph.is] using (replacement?_ne hr).2
  · have hback : Gives (Calm seen) (Source.giveBack second : ScanM Tape Unit) fun _ => Calm seen :=
      (Tape.giveBack_calm h₂.isEof).pre fun t ht => ht.took h₂ (Glyph.is_of_is hq₂ (by decide))
    exact Tape.restore_calm.bind fun _ => hback.bind fun _ => .pure _ fun t ht =>
      ht.took h₁ (Glyph.is_of_is hq₁ (by decide))

theorem replaceNext_calm : Gives (Calm seen) (replaceNext : ScanM Tape Glyph) (Took seen) := by
  refine Tape.take_calm.bind fun first => ?_
  split
  · next hq₁ =>
    intro s hs
    have h₁ := (hs.sound (Glyph.isEof_eq_false_of_value? (Glyph.is_iff.1 hq₁))).placed
    refine Tape.take_calm.bind (fun second => ?_) s hs.calm
    split
    · next hq₂ =>
      intro t ht
      have h₂ := (ht.sound (Glyph.isEof_eq_false_of_value? (Glyph.is_iff.1 hq₂))).placed
      exact afterMarks_calm h₁ h₂ hq₁ hq₂ t ht.calm
    · exact Tape.restore_calm.bind fun _ => .pure _ fun t ht =>
        ht.took h₁ (Glyph.is_of_is hq₁ (by decide))
  · exact .pure _ fun t ht => ht

theorem take_calm : Gives (fun s : Trigraph Tape => s.below.Calm seen) Source.take fun g s =>
    s.below.Took seen g := by
  rintro ⟨⟨below, enabled⟩, log⟩ hs
  change ∃ g s, take _ = _ ∧ _
  cases enabled with
  | true =>
    obtain ⟨g, s, ht, hq, -⟩ := onBelow_gives replaceNext_calm true ⟨⟨below, true⟩, log⟩ ⟨hs, rfl⟩
    exact ⟨g, s, ht, hq⟩
  | false =>
    obtain ⟨g, s, ht, hq, -⟩ := onBelow_gives Tape.take_calm false ⟨⟨below, false⟩, log⟩ ⟨hs, rfl⟩
    exact ⟨g, s, ht, hq⟩

theorem giveBack_calm {g : Glyph} (hg : g.isEof = false) :
    Gives (fun s : Trigraph Tape => s.below.Took seen g) (Source.giveBack g) fun _ s =>
      s.below.Calm seen := by
  intro s hs
  obtain ⟨u, s', ht, hq, -⟩ := onBelow_gives (Tape.giveBack_calm hg) s.state.enabled s ⟨hs, rfl⟩
  exact ⟨u, s', ht, hq⟩

theorem restore_calm {g : Glyph} :
    Gives (fun s : Trigraph Tape => s.below.Took seen g) (Source.restore g) fun _ s =>
      s.below.Calm seen := by
  unfold Source.restore
  split
  · exact .pure _ fun t ht => ht.calm
  · next hg => exact giveBack_calm (Bool.eq_false_iff.2 hg)

end Trigraph

/-- The usual phases over a tape. -/
abbrev Taped := Splice (Trigraph Tape)

namespace Taped

/-- No line feed is to come once the end has been seen, and the phases know of no end before. -/
def Calm (s : Taped) : Prop := s.below.below.Calm s.ending.isSome

/-- The glyph `g` was taken last. -/
def Took (g : Glyph) (s : Taped) : Prop := s.below.below.Took s.ending.isSome g

/-- Between splices: what has been deleted so far has a place. -/
def Splicing (seen : Bool) (removed : List Glyph) (s : Trigraph Tape) : Prop :=
  (∀ r ∈ removed, r.Placed) ∧ s.below.Calm seen

/-- After the splices: what has been deleted has a place, and the next glyph was taken. -/
def Spliced (seen : Bool) (r : List Glyph × Glyph) (s : Trigraph Tape) : Prop :=
  (∀ p ∈ r.1, p.Placed) ∧ s.below.Took seen r.2

theorem spliceTurn_calm (seen : Bool) (removed : List Glyph) :
    Gives (Splicing seen removed) (Splice.spliceTurn removed : ScanM (Trigraph Tape) _)
      (Turn.Post (Splicing seen) (Spliced seen)) := by
  intro s hs
  have hremoved : ∀ r ∈ removed.reverse, r.Placed := fun r hr => hs.1 r (List.mem_reverse.1 hr)
  refine Trigraph.take_calm.bind (fun g => ?_) s hs.2
  split
  · next hb =>
    intro t ht
    have hg := (ht.sound (Glyph.isEof_eq_false_of_value? (Glyph.is_iff.1 hb))).placed
    refine Trigraph.take_calm.bind (fun after => ?_) t ht.calm
    split
    · next hn =>
      have hafter : after.isEof = false := Glyph.isEof_eq_false_of_value? (Glyph.is_iff.1 hn)
      refine (ScanM.view_keeps (P := fun s : Trigraph Tape => s.below.Took seen after) _).bind fun _ => ?_
      refine (ScanM.emit_gives (P := fun s : Trigraph Tape => s.below.Took seen after) _).bind fun _ => ?_
      refine .pure _ fun u hu => ⟨?_, hu.calm⟩
      exact List.forall_mem_cons.2 ⟨(hu.sound hafter).placed, List.forall_mem_cons.2 ⟨hg, hs.1⟩⟩
    · refine Trigraph.restore_calm.bind fun _ => .pure _ fun u hu => ⟨hremoved, ?_⟩
      exact Tape.Calm.took hu hg (Glyph.is_of_is hb (by decide))
  · exact .pure _ fun t ht => ⟨hremoved, ht⟩

theorem spliceAll_calm (seen : Bool) :
    Gives (fun s : Trigraph Tape => s.below.Calm seen) Splice.spliceAll (Spliced seen) :=
  (ScanM.loop_gives (spliceTurn_calm seen) []).pre fun _ hs => ⟨nofun, hs⟩

theorem decorate_end {P : Taped → Prop} {removed : List Glyph} {g : Glyph}
    (hr : ∀ r ∈ removed, r.Placed) (hg : g.isEof = true) :
    Gives P (Splice.decorate removed g) fun h s => h.isEof = true ∧ P s := by
  unfold Splice.decorate
  split
  · exact .pure _ fun s hs => ⟨hg, hs⟩
  · next he =>
    have hsplice : Glyph.splice removed g = .ok (.eof g.file? removed) := by
      rw [Glyph.splice, Glyph.value?_eq_none_iff.2 hg]
      simp only [Glyph.endAfter, Glyph.checkParts_of_placed (fun h => he (by rw [h]; rfl)) hr]
      rfl
    refine (ScanM.require_gives hsplice).post ?_
    rintro _ s ⟨rfl, hs⟩
    exact ⟨rfl, hs⟩

theorem took_end {s : Taped} {g : Glyph} (h : s.below.below.Calm s.ending.isSome)
    (hs : s.below.below.spent = true) (hg : g.isEof = true) : s.Took g where
  calm := h
  ended _ := hs
  sound hp := absurd (hg.symm.trans hp) (by decide)
  quiet _ := by rw [Glyph.is, Glyph.value?_eq_none_iff.2 hg]; rfl

theorem take_calm : Gives Calm (Source.take : ScanM Taped Glyph) Took := by
  intro s hs
  change ∃ g s, Splice.take _ = _ ∧ _
  refine (Splice.onBelow_gives (spliceAll_calm s.state.ending.isSome) s.state.ending).bind
    (fun r => ?_) s ⟨hs, rfl⟩
  obtain ⟨removed, k⟩ := r
  rintro t ⟨⟨hremoved, htook⟩, hending⟩
  have hk : Took k t.state := by
    rw [← hending] at htook
    exact htook
  refine (ScanM.view_gives (P := Took k) Splice.ending).bind (fun x => ?_) t hk
  rintro u ⟨hu, rfl⟩
  cases he : k.isEof with
  | false =>
    -- a glyph with what was deleted in front of it looks as it did
    have hk' : k.Sound := hu.sound he
    have hsound := hk'.attach hremoved
    have hattach : Took (Glyph.attach removed k) u.state := by
      refine ⟨hu.calm, fun h => ?_, fun _ => hsound, fun hq => ?_⟩
      · exact absurd (hsound.placed.isEof.symm.trans h) (by decide)
      · rw [Glyph.is, Glyph.value?_attach]
        exact hu.quiet hq
    refine (Splice.decorate_gives (P := Took (Glyph.attach removed k)) hremoved hk'.placed).bind
      (fun h => .of_prop ?_) u hattach
    rintro rfl
    simp only [Splice.remember, hsound.placed.isEof, Bool.false_eq_true, dite_false]
    exact .pure _ fun s hs => hs
  | true =>
    cases hx : u.state.ending with
    | some e => exact ⟨e.1, u, rfl, took_end hu.calm (hu.ended he) e.2⟩
    | none =>
      refine (decorate_end (P := Took k) hremoved he).bind (fun h => .of_prop fun hh => ?_) u hu
      intro v hv
      refine (Splice.remember_gives (P := fun b : Trigraph Tape => b.below.Calm true ∧
        b.below.spent = true) hh).bind (fun _ => .pure _ fun w hw => ?_) v ?_
      · exact took_end (by rw [hw.2]; exact hw.1.1) hw.1.2 hh
      · exact ⟨⟨fun _ => hv.ended he, hv.calm.sound, hv.calm.quiet⟩, hv.ended he⟩

theorem giveBack_calm {g : Glyph} (hg : g.isEof = false) :
    Gives (Took g) (Source.giveBack g : ScanM Taped Unit) fun _ => Calm := by
  intro s hs
  obtain ⟨u, s', ht, hq, he⟩ := Splice.onBelow_gives (Trigraph.giveBack_calm hg) s.state.ending s ⟨hs, rfl⟩
  refine ⟨u, s', ht, ?_⟩
  change s'.state.below.below.Calm s'.state.ending.isSome
  rw [he]
  exact hq

/-! ## Scanners -/

/-- The phases over a tape of a text from its beginning. -/
def ofText (name : Option String) (trigraphs : Bool) (cs : List Char) : Taped :=
  .ofSource ⟨Tape.ofText name cs, trigraphs⟩

/-- The phases over a file that follows a tape. -/
def pact (k : Nat) (edge : Edge) (stop : Location) : Pact Phases Taped :=
  (Tape.pact k edge stop).trigraph.splice

/-- At the beginning of a file the phases are in step with those over a tape of its beginning. -/
theorem pact_ofText {k : Nat} {edge : Edge} {f : File} {cs : List Char}
    (hr : f.reader.Leads edge.Beyond cs) (hp : f.place = Location.origin.down k) (hb : f.returned = [])
    (trigraphs : Bool) : (pact k edge (Location.origin.after cs)).Rel (Phases.ofFile f trigraphs)
      (ofText f.name trigraphs cs) :=
  ⟨⟨Tape.beside_ofText hr hp hb, rfl⟩, rfl⟩

theorem not_lost_of_rel {k : Nat} {edge : Edge} {stop : Location} {f : Phases} {s : Taped}
    (h : (pact k edge stop).Rel f s) : ¬ (pact k edge stop).Lost s := h.1.1.unseen

/-- The phases over a file that ends where the tape ends. -/
abbrev exact (stop : Location) : Pact Phases Taped := pact 0 .closed stop

theorem exact_ofFeed {feed : Feed} {cs : List Char} (h : feed.Supplies (Utf8.encode cs))
    (name : Option String) (trigraphs : Bool) :
    (exact (Location.origin.after (Text.unifyLineEnds cs))).Rel (Phases.ofFile (.ofFeed feed name) trigraphs)
      (ofText name trigraphs (Text.unifyLineEnds cs)) :=
  pact_ofText (f := .ofFeed feed name) (LineReader.ofFeed_holds h).leads_closed rfl rfl trigraphs

theorem exact_not_lost (stop : Location) (s : Taped) : ¬ (exact stop).Lost s := id

/-- **Whatever a scanner does keeps the tape calm**: it gives back the glyph that it took last, or a
glyph that is no line feed. -/
def coupling (stop : Location) : Coupling Phases Taped where
  Like g h := g = h ∧ g.Placed
  InStep f s := (exact stop).Rel f s ∧ Calm s
  Past g _ f s := (exact stop).Rel f s ∧ Took g s
  Primed f s := (exact stop).Rel f s ∧ Calm s
  Loose f s := (exact stop).Rel f s ∧ Calm s
  value_eq := @Glyph.value?_of_same
  placed := @Glyph.placed_of_same
  like_merged := @Glyph.merged_of_same
  inStep_of_primed h := h
  inStep_of_past h := ⟨h.1, h.2.calm⟩
  past_of_inert hl hv hc hs := by
    simp only [Text.isInert, Bool.and_eq_true, bne_iff_ne] at hc
    exact ⟨hs.1, Tape.Calm.took hs.2 hl.2 (by simpa [Glyph.is, hv] using hc.2)⟩
  take := by
    refine ((exact stop).take.beside (exact_not_lost stop) take_calm).post ?_
    rintro g h f s ⟨hg, hrel, htook⟩
    obtain rfl : g = h := hg.trans h.down_zero
    cases hg : g.isEof with
    | true => exact .inl ⟨rfl, rfl, ⟨hrel, htook.calm⟩, hrel, htook.calm⟩
    | false => exact .inr ⟨⟨rfl, (htook.sound hg).placed⟩, hrel, htook⟩
  giveBack_past := by
    rintro g _ ⟨rfl, hg⟩
    have hback := (exact stop).giveBack g
    rw [show g.down (exact stop).lines = g from g.down_zero] at hback
    refine (hback.beside (exact_not_lost stop) (giveBack_calm hg.isEof)).post ?_
    rintro _ _ f s ⟨-, hs⟩
    exact ⟨hs, fun _ => hs⟩
  giveBack_backslash := by
    rintro g _ ⟨rfl, hg⟩ hb
    have hback := (exact stop).giveBack g
    rw [show g.down (exact stop).lines = g from g.down_zero] at hback
    refine ((hback.beside (exact_not_lost stop) (giveBack_calm hg.isEof)).pre fun s t hs => ?_).post ?_
    · exact ⟨hs.1, Tape.Calm.took hs.2 hg (Glyph.is_of_is hb (by decide))⟩
    · rintro _ _ f s ⟨-, hs⟩
      exact hs

/-- A file beside the tape owes the text `ls`. -/
def Owes (stop : Location) (ls : List Glyph) (s : Taped) : Prop :=
  ∃ f : Phases, f.Owes ls ∧ (exact stop).Rel f s ∧ Calm s

/-- A file beside the tape has ended, and so has the tape. -/
def Ended (stop : Location) (ls : List Glyph) (s : Taped) : Prop :=
  ∃ f : Phases, f.Ended ls ∧ (exact stop).Rel f s ∧ Calm s ∧ s.below.below.spent = true

theorem owes_ofText {feed : Feed} {cs : List Char} (h : feed.Supplies (Utf8.encode cs))
    (name : Option String) (trigraphs : Bool) :
    Owes (Location.origin.after (Text.unifyLineEnds cs))
      (Glyph.inscribe name .origin (Text.unifyLineEnds cs))
      (ofText name trigraphs (Text.unifyLineEnds cs)) := by
  exact ⟨_, Phases.ofFile_owes h name trigraphs, exact_ofFeed h name trigraphs, Tape.calm_ofText name _⟩

end Taped

/-! ## Tokens -/

namespace Scanner

variable {σ : Type} [Source σ] {table : Table} {s s' : Logged (Scanner σ)}

theorem next_ok {g : Glyph} {t : Logged σ} (h : Source.take ⟨s.state.source, s.log⟩ = .ok g t) :
    next s = .ok g ⟨{ s.state with source := t.state }, t.log⟩ := by
  rw [next, onSource, ScanM.onState, onPart, h]

omit [Source σ] in
theorem eq_of_finish {k : TokenKind} {t : Token} (h : finish k s = .ok t s') :
    t = ⟨s.state.draft.glyphs, k, []⟩ ∧ s'.state.source = s.state.source := by
  unfold finish at h
  split at h
  · next u hu =>
    cases h
    refine ⟨?_, rfl⟩
    unfold Draft.toToken at hu
    split at hu
    · cases hu
    · exact (Token.make_eq_ok_iff.1 hu).2.2
  · cases h

/-- A scanner gives no token if the next glyph is an end. Else the rest of the token is read after the
first glyph, and nothing after that. -/
theorem exists_of_readToken [Alphabet] {o : Option Token} (h : readToken table s = .ok o s') :
    ∃ g u, next s = .ok g u ∧ match g.value? with
      | none => o = none ∧ s' = u
      | some lead => ∃ k v, o = some ⟨v.state.draft.glyphs, k, []⟩ ∧ s'.state.source = v.state.source ∧
          readRest table lead ⟨{ u.state with draft := u.state.draft.append g }, u.log⟩ = .ok k v := by
  simp only [readToken, bind, EStateM.bind] at h
  split at h
  · next g u hu =>
    refine ⟨g, u, hu, ?_⟩
    cases hv : g.value? with
    | none =>
      rw [hv] at h
      cases h
      exact ⟨rfl, rfl⟩
    | some lead =>
      rw [hv] at h
      simp only [keep, ScanM.change, EStateM.bind] at h
      split at h
      · next k v hk =>
        split at h
        · next t w ht =>
          cases h
          obtain ⟨rfl, hsource⟩ := eq_of_finish ht
          exact ⟨k, v, rfl, hsource, hk⟩
        · cases h
      · cases h
  · cases h

/-- The first glyph of a token. -/
theorem exists_of_readToken_some [Alphabet] {t : Token} (h : readToken table s = .ok (some t) s') :
    ∃ g u lead v, next s = .ok g u ∧ g.value? = some lead ∧ t.children = [] ∧
      t.glyphs = v.state.draft.glyphs ∧ s'.state.source = v.state.source ∧
      readRest table lead ⟨{ u.state with draft := u.state.draft.append g }, u.log⟩ = .ok t.kind v := by
  obtain ⟨g, u, hg, hcase⟩ := exists_of_readToken h
  cases hv : g.value? with
  | none =>
    rw [hv] at hcase
    cases hcase.1
  | some lead =>
    rw [hv] at hcase
    obtain ⟨k, v, ht, hsource, hrest⟩ := hcase
    cases ht
    exact ⟨g, u, lead, v, hg, hv, rfl, rfl, hsource, hrest⟩

end Scanner

namespace Taped

variable {stop : Location} {table : Table}

theorem next_took {s u : Logged (Scanner Taped)} {g : Glyph} (hs : Calm s.state.source)
    (hg : Scanner.next s = .ok g u) : Took g u.state.source ∧ u.state.draft = s.state.draft := by
  obtain ⟨h, t, ht, hq⟩ := take_calm ⟨s.state.source, s.log⟩ hs
  rw [Scanner.next_ok ht] at hg
  cases hg
  exact ⟨hq, rfl⟩

/-- **The books of a tape** are those of a file beside it. There is no end before it has been seen. -/
def ledger [Alphabet] (stop : Location) : Ledger Taped where
  Owes := Owes stop
  Ended := Ended stop
  owes_of_ended := by
    rintro ls s ⟨f, hf, hrel, hcalm, -⟩
    exact ⟨f, Phases.ledger.owes_of_ended hf, hrel, hcalm⟩
  readToken := by
    rintro table hf ls s ⟨hd, f, howes, hrel, hcalm⟩
    obtain ⟨o, u, hu, -, hq⟩ := Phases.ledger.readToken hf ls ⟨⟨f, .empty⟩, []⟩ ⟨rfl, howes⟩
    have hbeside := Coupling.readToken_beside (C := coupling stop) hf ⟨⟨f, .empty⟩, []⟩ s
      ⟨rfl, by rw [hd]; rfl, hrel, hcalm⟩
    rw [hu] at hbeside
    match hs : Scanner.readToken table s, hbeside with
    | .ok o' s', hbeside =>
      refine ⟨o', s', rfl, ?_⟩
      match o, o', hbeside, hq with
      | none, none, ⟨_, hd', hrel', hcalm'⟩, hq =>
        refine ⟨congrArg Draft.mk hd', u.state.source, hq, hrel', hcalm', ?_⟩
        obtain ⟨g, v, hg, hcase⟩ := Scanner.exists_of_readToken hs
        cases hv : g.value? with
        | none =>
          rw [hv] at hcase
          rw [hcase.2]
          exact (next_took hcalm hg).1.ended (Glyph.value?_eq_none_iff.1 hv)
        | some lead =>
          rw [hv] at hcase
          obtain ⟨k, v, ht, -⟩ := hcase
          cases ht
      | some t, some t', ⟨halike, hafter⟩, hq =>
        obtain rfl := halike.eq And.left
        obtain ⟨hd', hrel', hcalm'⟩ : s'.state.draft.newestFirst = [] ∧
            (exact stop).Rel u.state.source s'.state.source ∧ Calm s'.state.source := by
          split at hafter <;> exact hafter.2
        obtain ⟨hc, rest, hrest, hls⟩ := hq
        exact ⟨congrArg Draft.mk hd', hc, rest, ⟨u.state.source, hrest, hrel', hcalm'⟩, hls⟩

end Taped

end Pretoken
