import Pretoken.Proofs.Decoding
import Pretoken.Proofs.WholeText
import Pretoken.Source.Pipeline

/-!
# The phases, glyph by glyph

* `File.Holds`, `Trigraph.Shows`, `Phases.Shows`: the glyphs that a file, the trigraph stage on top of
  it, and the splicing stage on top of both are about to give.
* `Trigraph.take_cons`, **`Phases.take_cons`**, `Phases.take_nil`: a stage gives the first of them.
* `Phases.giveBack_past`: the glyph that was given last can be given back; so can, by
  `Phases.Shows.past`, any glyph of an inert character.
* `Phases.giveBack_resplice`: a backslash that is given back in front of a line feed becomes a splice.
* **`Phases.drain_eq`**: draining the phases gives the text with its line ends unified, its trigraphs
  replaced and its lines spliced.
-/

namespace Pretoken

open ScanM (Gives)

/-! ## Draining -/

namespace Source

variable {σ : Type} [Source σ] {s s' s'' : Logged σ} {g : Glyph}

theorem drain_cons (ht : take s = .ok g s') (hg : g.isEof = false) {gs : List Glyph}
    {r : Except Fault Glyph} (hr : drain s' = .ok (gs, r) s'') : drain s = .ok (g :: gs, r) s'' := by
  have hd : draw s = .ok (.again g) s' := by
    change EStateM.map _ _ s = _
    simp only [EStateM.map, ht, hg, Bool.false_eq_true, if_false]
  rw [drain, gatherUntil_again hd]
  change EStateM.map _ drain s' = _
  rw [EStateM.map, hr]

theorem drain_end (ht : take s = .ok g s') (hg : g.isEof = true) : drain s = .ok ([], .ok g) s' := by
  refine gatherUntil_done ?_
  change EStateM.map _ _ s = _
  simp only [EStateM.map, ht, hg, if_true]

theorem drain_error {e : Fault} (ht : take s = .error e s') : drain s = .ok ([], .error e) s' := by
  refine gatherUntil_error ?_
  change EStateM.map _ _ s = _
  rw [EStateM.map, ht]

end Source

/-! ## Files -/

namespace File

/-- The file with the given name is about to give the glyphs `gs`. -/
def Holds (f : File) (name : Option String) (gs : List Glyph) : Prop :=
  f.name = name ∧ ∃ cs, f.reader.Holds cs ∧ f.returned ++ Glyph.inscribe name f.place cs = gs

theorem ofFeed_holds {feed : Feed} {cs : List Char} (h : feed.Supplies (Utf8.encode cs))
    (name : Option String) :
    (ofFeed feed name).Holds name (Glyph.inscribe name .origin (Text.unifyLineEnds cs)) :=
  ⟨rfl, _, LineReader.ofFeed_holds h, rfl⟩

variable {name : Option String} {gs : List Glyph}

theorem take_gives :
    Gives (·.Holds name gs) (Source.take : ScanM File Glyph) fun g f =>
      g = gs.head?.getD (.eof name []) ∧ f.Holds name gs.tail := by
  rintro ⟨f, log⟩ ⟨rfl, cs, hr, rfl⟩
  change ∃ g s, take _ = _ ∧ _
  unfold take
  dsimp only
  cases hf : f.returned with
  | cons g gs => exact ⟨g, _, rfl, rfl, rfl, cs, hr, rfl⟩
  | nil =>
    obtain ⟨o, r, ho, rfl, hr'⟩ := LineReader.read_meets cs f.reader hr
    unfold readGlyph
    dsimp only
    rw [ho]
    cases cs with
    | nil => exact ⟨_, _, rfl, rfl, rfl, [], hr', by simp [hf, Glyph.inscribe]⟩
    | cons c cs => exact ⟨_, _, rfl, rfl, rfl, cs, hr', by simp [hf, Glyph.inscribe]⟩

theorem giveBack_gives {g : Glyph} (hg : g.isEof = false) :
    Gives (·.Holds name gs) (Source.giveBack g : ScanM File Unit) fun _ f => f.Holds name (g :: gs) := by
  change Gives _ (giveBack g) _
  unfold giveBack
  rw [hg, if_neg (by decide)]
  refine ScanM.change_gives fun f hf => ?_
  obtain ⟨hn, cs, hr, rfl⟩ := hf
  exact ⟨hn, cs, hr, rfl⟩

theorem restore_gives (h : ∀ g ∈ gs, g.Placed) :
    Gives (·.Holds name gs.tail) (Source.restore (gs.head?.getD (.eof name [])) : ScanM File Unit)
      fun _ f => f.Holds name gs := by
  cases gs with
  | nil => exact .pure _ fun _ hs => hs
  | cons g gs =>
    have hg := (h g (by simp)).isEof
    simp only [List.head?_cons, Option.getD_some, Source.restore, hg, Bool.false_eq_true, if_false]
    exact giveBack_gives hg

end File

/-! ## The trigraph stage -/

namespace Trigraph

open Glyph (trigraphAt? replaceTrigraphs phaseOne)

section Below

variable {name : Option String} {gs : List Glyph}

/-- After the glyph `g` the file holds the rest of `gs`; taking `g` back would not change how the text
is read. -/
def Popped (name : Option String) (gs : List Glyph) (g : Glyph) (f : File) : Prop :=
  g.Placed ∧ ∃ raw, f.Holds name raw ∧ (∀ g ∈ raw, g.Placed) ∧
    replaceTrigraphs gs = g :: replaceTrigraphs raw ∧ trigraphAt? (g :: raw) = none

theorem popped_of_none {g : Glyph} {f : File} (h : ∀ p ∈ g :: gs, p.Placed) (hf : f.Holds name gs)
    (ht : trigraphAt? (g :: gs) = none) : Popped name (g :: gs) g f :=
  ⟨h g (by simp), gs, hf, fun p hp => h p (List.mem_cons_of_mem _ hp),
    Glyph.replaceTrigraphs_of_none ht, ht⟩

theorem afterMarks_gives {a b : Glyph} (h : ∀ g ∈ a :: b :: gs, g.Placed) (ha : a.is '?')
    (hb : b.is '?') :
    Gives (·.Holds name gs) (afterMarks a b : ScanM File Glyph) (Popped name (a :: b :: gs)) := by
  refine File.take_gives.bind fun c => .of_prop fun hc => ?_
  split
  · next v hv =>
    -- the third glyph completes a trigraph
    cases gs with
    | nil => simp [hc] at hv
    | cons c' gs =>
      obtain rfl : c = c' := hc
      have hp : ∀ p ∈ [a, b, c], p.Placed := fun p hp => h p (List.mem_append_left gs hp)
      refine (ScanM.require_gives (P := (File.Holds · name gs)) (Glyph.merge_eq v (by simp) hp)).bind
        fun g => .of_prop ?_
      rintro rfl
      refine (ScanM.emit_gives (P := (File.Holds · name gs)) _).bind fun _ => .pure _ fun f hf => ?_
      refine ⟨Glyph.placed_merged v (by simp) hp, gs, hf, fun p hp => h p (by simp [hp]), ?_, ?_⟩
      · exact Glyph.replaceTrigraphs_of_some (by simp [trigraphAt?, ha, hb, hv])
      · exact Glyph.trigraphAt?_of_ne (by
          obtain ⟨x, hx, hr⟩ := Option.bind_eq_some_iff.1 hv
          simpa using (replacement?_ne hr).1) gs
  · next hv =>
    subst hc
    refine (File.restore_gives fun p hp => h p (by simp [hp])).bind fun _ =>
      (File.giveBack_gives (h b (by simp)).isEof).bind fun _ => .pure _ fun f hf => ?_
    refine popped_of_none h hf ?_
    cases gs with
    | nil => rfl
    | cons c gs => simpa [trigraphAt?, ha, hb] using hv

/-- The stage gives the first glyph, a trigraph being replaced. -/
theorem replaceNext_gives {a : Glyph} (h : ∀ g ∈ a :: gs, g.Placed) :
    Gives (·.Holds name (a :: gs)) (replaceNext : ScanM File Glyph) (Popped name (a :: gs)) := by
  refine File.take_gives.bind fun g => .of_prop fun hg => ?_
  obtain rfl : g = a := hg
  simp only [List.tail_cons]
  split
  · next ha =>
    refine File.take_gives.bind fun b => .of_prop fun hb => ?_
    split
    · next hm =>
      cases gs with
      | nil => simp [hb, Glyph.is] at hm
      | cons b' gs =>
        obtain rfl : b = b' := hb
        exact afterMarks_gives h ha hm
    · next hm =>
      subst hb
      refine (File.restore_gives fun p hp => h p (by simp [hp])).bind fun _ => .pure _ fun f hf => ?_
      refine popped_of_none h hf ?_
      obtain _ | ⟨b, _ | ⟨c, gs⟩⟩ := gs
      · rfl
      · rfl
      · simp only [List.head?_cons, Option.getD_some, Bool.not_eq_true] at hm
        simp [trigraphAt?, hm]
  · next ha =>
    exact .pure _ fun f hf => popped_of_none h hf
      (Glyph.trigraphAt?_of_ne (fun hv => ha (Glyph.is_iff.2 hv)) gs)

theorem replaceNext_nil :
    Gives (·.Holds name []) (replaceNext : ScanM File Glyph) fun g f =>
      g = .eof name [] ∧ f.Holds name [] := by
  refine File.take_gives.bind fun g => .of_prop ?_
  rintro rfl
  exact .pure _ fun f hf => ⟨rfl, hf⟩

end Below

/-- The stage is about to give the glyphs `gs`, and then the end of the file with the given name. -/
def Shows (s : Trigraph File) (name : Option String) (gs : List Glyph) : Prop :=
  ∃ raw, s.below.Holds name raw ∧ (∀ g ∈ raw, g.Placed) ∧ phaseOne s.enabled raw = gs

/-- The stage has given the glyph `g` and is about to give `gs`. It would give `g` again, or a glyph
that looks like it, if that were given back. -/
def Past (s : Trigraph File) (name : Option String) (g : Glyph) (gs : List Glyph) : Prop :=
  g.Placed ∧ ∃ raw, s.below.Holds name raw ∧ (∀ g ∈ raw, g.Placed) ∧ phaseOne s.enabled raw = gs ∧
    (s.enabled = true → trigraphAt? (g :: raw) = none)

variable {name : Option String} {g : Glyph} {gs : List Glyph}

theorem Past.shows {s : Trigraph File} (h : s.Past name g gs) : s.Shows name gs := by
  obtain ⟨-, raw, hf, hp, hr, -⟩ := h
  exact ⟨raw, hf, hp, hr⟩

theorem Shows.placed {s : Trigraph File} (h : s.Shows name gs) : ∀ g ∈ gs, g.Placed := by
  obtain ⟨raw, -, hp, rfl⟩ := h
  exact Glyph.placed_of_mem_phaseOne hp

theorem onBelow_gives {σ α : Type} {m : ScanM σ α} {P : σ → Prop} {Q : α → σ → Prop}
    (hm : Gives P m Q) (enabled : Bool) :
    Gives (fun s => P s.below ∧ s.enabled = enabled) (onBelow m) fun a s =>
      Q a s.below ∧ s.enabled = enabled :=
  ScanM.onState_gives hm _ (fun _ _ => rfl) fun _ _ h => h

/-- **The stage gives the first glyph.** -/
theorem take_cons :
    Gives (·.Shows name (g :: gs)) (Source.take : ScanM (Trigraph File) Glyph) fun h s =>
      h = g ∧ s.Past name g gs := by
  rintro ⟨⟨below, enabled⟩, log⟩ ⟨raw, hf, hp, hr⟩
  change ∃ h s, take _ = _ ∧ _
  cases enabled with
  | false =>
    obtain rfl : raw = g :: gs := hr
    obtain ⟨h, s, hs, ⟨rfl, hf'⟩, he⟩ := onBelow_gives File.take_gives false ⟨⟨below, false⟩, log⟩ ⟨hf, rfl⟩
    refine ⟨_, s, hs, rfl, hp _ (by simp), gs, hf', fun p hp' => hp p (by simp [hp']), ?_, ?_⟩
    · rw [he]; rfl
    · rw [he]; exact nofun
  | true =>
    match raw, hp, hf, hr with
    | a :: raw, hp, hf, hr =>
      obtain ⟨h, s, hs, ⟨hh, raw', hf', hp', hr', ht⟩, he⟩ :=
        onBelow_gives (replaceNext_gives hp) true ⟨⟨below, true⟩, log⟩ ⟨hf, rfl⟩
      obtain ⟨rfl, rfl⟩ : h = g ∧ replaceTrigraphs raw' = gs := by
        rw [phaseOne, if_pos rfl, hr'] at hr
        simpa using hr
      exact ⟨h, s, hs, rfl, hh, raw', hf', hp', by rw [he]; rfl, fun _ => ht⟩

theorem take_nil :
    Gives (·.Shows name []) (Source.take : ScanM (Trigraph File) Glyph) fun g s =>
      g = .eof name [] ∧ s.Shows name [] := by
  rintro ⟨⟨below, enabled⟩, log⟩ ⟨raw, hf, hp, hr⟩
  change ∃ h s, take _ = _ ∧ _
  obtain rfl : raw = [] := by
    match enabled, raw, hr with
    | _, [], _ => rfl
    | true, g :: raw, hr => exact absurd hr (Glyph.replaceTrigraphs_ne_nil g raw)
  cases enabled with
  | false =>
    obtain ⟨h, s, hs, ⟨rfl, hf'⟩, he⟩ := onBelow_gives File.take_gives false ⟨⟨below, false⟩, log⟩ ⟨hf, rfl⟩
    exact ⟨_, s, hs, rfl, [], hf', by simp, by rw [he]; rfl⟩
  | true =>
    obtain ⟨h, s, hs, ⟨rfl, hf'⟩, he⟩ := onBelow_gives replaceNext_nil true ⟨⟨below, true⟩, log⟩ ⟨hf, rfl⟩
    exact ⟨_, s, hs, rfl, [], hf', by simp, by rw [he]; rfl⟩

theorem Shows.past {s : Trigraph File} (h : s.Shows name gs) (hg : g.Placed) (hv : g.value? ≠ some '?') :
    s.Past name g gs := by
  obtain ⟨raw, hf, hp, hr⟩ := h
  exact ⟨hg, raw, hf, hp, hr, fun _ => Glyph.trigraphAt?_of_ne hv raw⟩

/-- A glyph that looks like the last one can take its place. -/
theorem giveBack_past {h : Glyph} (hh : h.Placed) (hv : h.value? = g.value?) :
    Gives (·.Past name g gs) (Source.giveBack h : ScanM (Trigraph File) Unit) fun _ s =>
      s.Shows name (h :: gs) := by
  rintro s ⟨-, raw, hf, hp, hr, ht⟩
  obtain ⟨u, s', hs, hf', he⟩ := onBelow_gives (File.giveBack_gives hh.isEof) s.state.enabled s ⟨hf, rfl⟩
  refine ⟨u, s', hs, h :: raw, hf', ?_, ?_⟩
  · exact List.forall_mem_cons.2 ⟨hh, hp⟩
  · rw [he, ← hr]
    unfold phaseOne
    split
    · next hen => exact Glyph.replaceTrigraphs_of_none ((Glyph.trigraphAt?_congr hv raw).trans (ht hen))
    · rfl

/-- A glyph that is no question mark can be given back at any time. -/
theorem giveBack_shows {h : Glyph} (hh : h.Placed) (hv : h.value? ≠ some '?') :
    Gives (·.Shows name gs) (Source.giveBack h : ScanM (Trigraph File) Unit) fun _ s =>
      s.Shows name (h :: gs) :=
  (giveBack_past (g := h) hh rfl).pre fun _ hs => hs.past hh hv

end Trigraph

/-! ## The splicing stage -/

namespace Splice

open Glyph (joinLines attach startsSplice)

variable {name : Option String} {all w trailing : List Glyph}

/-- Of the glyphs `all`, which are joined to `w` and `trailing`, the stage has deleted `removed` and
is about to see the rest. -/
def Splicing (name : Option String) (all w trailing removed : List Glyph) (s : Trigraph File) : Prop :=
  (∀ g ∈ removed, g.Placed) ∧ ∃ gs, gs <:+ all ∧ s.Shows name gs ∧
    joinLines removed.reverse gs = (w, trailing)

/-- Of the glyphs `all`, which are joined to `w` and `trailing`, the stage has deleted `r.1` and found
`r.2` behind it. -/
def Spliced (name : Option String) (all w trailing : List Glyph) (r : List Glyph × Glyph)
    (s : Trigraph File) : Prop :=
  (∀ g ∈ r.1, g.Placed) ∧ match w with
  | [] => r = (trailing, .eof name []) ∧ s.Shows name []
  | g :: w => g = attach r.1 r.2 ∧ ∃ gs, r.2 :: gs <:+ all ∧ s.Past name r.2 gs ∧
      joinLines [] gs = (w, trailing) ∧ startsSplice (r.2 :: gs) = false

theorem spliced_of_past {removed gs : List Glyph} {g : Glyph} {s : Trigraph File}
    (hr : ∀ g ∈ removed, g.Placed) (ha : g :: gs <:+ all) (hp : s.Past name g gs)
    (hj : joinLines removed.reverse (g :: gs) = (w, trailing)) (hs : startsSplice (g :: gs) = false) :
    Spliced name all w trailing (removed.reverse, g) s := by
  rw [Glyph.joinLines_cons hs, Prod.mk.injEq] at hj
  obtain ⟨rfl, rfl⟩ := hj
  exact ⟨by simpa using hr, rfl, gs, ha, hp, rfl, hs⟩

theorem spliceTurn_gives (removed : List Glyph) :
    Gives (Splicing name all w trailing removed) (spliceTurn removed : ScanM (Trigraph File) _)
      (Turn.Post (Splicing name all w trailing) (Spliced name all w trailing)) := by
  rintro s ⟨hr, gs, ha, hs, hj⟩
  match gs, ha, hs, hj with
  | [], _, hs, hj =>
    refine Trigraph.take_nil.bind (fun g => .of_prop ?_) s hs
    rintro rfl
    obtain ⟨rfl, rfl⟩ := Prod.mk.inj hj
    exact .pure _ fun s hs => ⟨by simpa using hr, rfl, hs⟩
  | [g], ha, hs, hj =>
    have hg := hs.placed g (by simp)
    refine Trigraph.take_cons.bind (fun g => .of_prop ?_) s hs
    rintro rfl
    split
    · next hb =>
      refine (Trigraph.take_nil.pre fun _ h => h.shows).bind fun after => .of_prop ?_
      rintro rfl
      refine .pure _ fun s hs => ?_
      exact spliced_of_past hr ha (hs.past hg (by rw [Glyph.is_iff.1 hb]; decide)) hj rfl
    · exact .pure _ fun s hs => spliced_of_past hr ha hs hj rfl
  | g :: n :: gs, ha, hs, hj =>
    have hg := hs.placed g (by simp)
    have hn := hs.placed n (by simp)
    refine Trigraph.take_cons.bind (fun g => .of_prop ?_) s hs
    rintro rfl
    split
    · next hb =>
      refine (Trigraph.take_cons.pre fun _ h => h.shows).bind fun after => .of_prop ?_
      rintro rfl
      split
      · next hl =>
        refine (ScanM.view_keeps (P := (Trigraph.Past · name after gs)) _).bind fun _ => ?_
        refine (ScanM.emit_gives (P := (Trigraph.Past · name after gs)) _).bind fun _ => ?_
        refine .pure _ fun s hs => ⟨?_, gs, ?_, hs.shows, ?_⟩
        · exact List.forall_mem_cons.2 ⟨hn, List.forall_mem_cons.2 ⟨hg, hr⟩⟩
        · exact (List.suffix_append [g, after] gs).trans ha
        · rw [Glyph.joinLines_splice hb hl] at hj
          simpa using hj
      · next hl =>
        rw [Source.restore, hn.isEof, if_neg (by decide)]
        refine (Trigraph.giveBack_past hn rfl).bind fun _ => .pure _ fun s hs => ?_
        refine spliced_of_past hr ha (hs.past hg (by rw [Glyph.is_iff.1 hb]; decide)) hj ?_
        simp only [Bool.not_eq_true] at hl
        simp [startsSplice, hl]
    · next hb =>
      simp only [Bool.not_eq_true] at hb
      exact .pure _ fun s hs => spliced_of_past hr ha hs hj (Glyph.startsSplice_of_ne hb _)

theorem spliceAll_gives (hj : joinLines [] all = (w, trailing)) :
    Gives (·.Shows name all) (spliceAll : ScanM (Trigraph File) _) (Spliced name all w trailing) := by
  refine (ScanM.loop_gives spliceTurn_gives []).pre fun s hs => ?_
  exact ⟨by simp, all, List.suffix_refl all, hs, hj⟩

theorem onBelow_gives {σ α : Type} {m : ScanM σ α} {P : σ → Prop} {Q : α → σ → Prop}
    (hm : Gives P m Q) (ending : Option { g : Glyph // g.isEof = true }) :
    Gives (fun s => P s.below ∧ s.ending = ending) (onBelow m) fun a s =>
      Q a s.below ∧ s.ending = ending :=
  ScanM.onState_gives hm _ (fun _ _ => rfl) fun _ _ h => h

theorem decorate_gives {σ : Type} {P : Splice σ → Prop} {removed : List Glyph} {g : Glyph}
    (hr : ∀ r ∈ removed, r.Placed) (hg : g.Placed) :
    Gives P (decorate removed g) fun h s => h = attach removed g ∧ P s := by
  unfold decorate
  split
  · next he =>
    rw [List.isEmpty_iff.1 he]
    exact .pure _ fun s hs => ⟨rfl, hs⟩
  · next he => exact ScanM.require_gives (Glyph.splice_eq hr hg fun h => he (by rw [h]; rfl))

theorem decorate_eof {σ : Type} {P : Splice σ → Prop} {removed : List Glyph}
    (hr : ∀ r ∈ removed, r.Placed) :
    Gives P (decorate removed (.eof name [])) fun h s => h = .eof name removed ∧ P s := by
  unfold decorate
  split
  · next he =>
    rw [List.isEmpty_iff.1 he]
    exact .pure _ fun s hs => ⟨rfl, hs⟩
  · next he =>
    refine ScanM.require_gives ?_
    rw [Glyph.splice, Glyph.value?_eof]
    simp only [Glyph.endAfter, Glyph.checkParts_of_placed (fun h => he (by rw [h]; rfl)) hr]
    rfl

theorem remember_gives {σ : Type} {P : σ → Prop} {g : Glyph} (h : g.isEof = true) :
    Gives (fun s => P s.below) (remember g) fun _ s => P s.below ∧ s.ending = some ⟨g, h⟩ := by
  rw [remember, dif_pos h]
  exact ScanM.change_gives fun s hs => ⟨hs, rfl⟩

end Splice

namespace Phases

open Glyph (joinLines attach startsSplice)

/-- What the end is when the stage below is about to give `gs` and `trailing` is deleted last. Once
the end is known, there is nothing left to splice. -/
def Ends (ending : Option { g : Glyph // g.isEof = true }) (name : Option String)
    (gs trailing : List Glyph) (e : Glyph) : Prop :=
  match ending with
  | none => e = .eof name trailing
  | some x => e = x.1 ∧ ∀ g ∈ gs, g.is '\n' = false

/-- The stage below is about to give `gs`, and so the phases the glyphs `w` and then the end `e`. -/
def ShowsOf (s : Phases) (gs w : List Glyph) (e : Glyph) : Prop :=
  ∃ name trailing, s.below.Shows name gs ∧ joinLines [] gs = (w, trailing) ∧
    Ends s.ending name gs trailing e

/-- The phases are about to give the glyphs `w` and then the end `e`. -/
def Shows (s : Phases) (w : List Glyph) (e : Glyph) : Prop := ∃ gs, s.ShowsOf gs w e

/-- The same, and the first glyph is what the stage below gives first: no splice comes before it. -/
def Primed (s : Phases) (w : List Glyph) (e : Glyph) : Prop :=
  ∃ gs, s.ShowsOf gs w e ∧ gs.head? = w.head?

/-- The phases have given the glyph `g` and are about to give `w` and then the end `e`. They would give
`g` again if it were given back. -/
def Past (s : Phases) (g : Glyph) (w : List Glyph) (e : Glyph) : Prop :=
  g.Placed ∧ ∃ name trailing k gs, s.below.Past name k gs ∧ k.value? = g.value? ∧
    joinLines [] gs = (w, trailing) ∧ startsSplice (k :: gs) = false ∧
    Ends s.ending name (k :: gs) trailing e

variable {g e : Glyph} {gs w : List Glyph} {s : Phases}

theorem Primed.shows (h : s.Primed w e) : s.Shows w e := by
  obtain ⟨gs, hs, -⟩ := h
  exact ⟨gs, hs⟩

theorem Ends.suffix {ending : Option { g : Glyph // g.isEof = true }} {name : Option String}
    {all trailing : List Glyph} (h : Ends ending name all trailing e) (hs : gs <:+ all) :
    Ends ending name gs trailing e := by
  cases ending with
  | none => exact h
  | some x => exact ⟨h.1, fun p hp => h.2 p (hs.subset hp)⟩

theorem Past.shows (h : s.Past g w e) : s.Shows w e := by
  obtain ⟨-, name, trailing, k, gs, hs, -, hj, -, he⟩ := h
  exact ⟨gs, name, trailing, hs.shows, hj, he.suffix (List.suffix_cons k gs)⟩

theorem Shows.placed (h : s.Shows w e) : ∀ g ∈ w, g.Placed := by
  obtain ⟨gs, name, trailing, hs, hj, -⟩ := h
  have := Glyph.placed_of_mem_joinLines [] hs.placed
  rwa [hj] at this

theorem Shows.isEof (h : s.Shows w e) : e.isEof = true := by
  obtain ⟨gs, name, trailing, -, -, he⟩ := h
  cases hx : s.ending with
  | none =>
    rw [hx] at he
    rw [he]
    rfl
  | some x =>
    rw [hx] at he
    rw [he.1]
    exact x.2

/-- **The phases give the first glyph.** -/
theorem take_cons :
    Gives (·.Shows (g :: w) e) (Source.take : ScanM Phases Glyph) fun h s => h = g ∧ s.Past g w e := by
  rintro s ⟨gs, name, trailing, hs, hj, he⟩
  change ∃ h s, Splice.take _ = _ ∧ _
  refine (Splice.onBelow_gives (Splice.spliceAll_gives hj) s.state.ending).bind (fun r => ?_) s ⟨hs, rfl⟩
  obtain ⟨removed, k⟩ := r
  rintro t ⟨⟨hr, rfl, gs', ha, hp, hj', hss⟩, ht⟩
  have hk : k.Placed := hp.1
  have hpast : Past t.state (attach removed k) w e := by
    refine ⟨Glyph.placed_attach hr hk, name, trailing, k, gs', hp, (Glyph.value?_attach _ _).symm, hj',
      hss, ?_⟩
    rw [ht]
    exact he.suffix ha
  have hg : (attach removed k).isEof = false := (Glyph.placed_attach hr hk).isEof
  refine (ScanM.view_keeps (P := fun s => Past s (attach removed k) w e) _).bind (fun x => ?_) t hpast
  simp only [hk.isEof]
  refine (Splice.decorate_gives (P := fun s => Past s (attach removed k) w e) hr hk).bind
    fun h => .of_prop ?_
  rintro rfl
  simp only [Splice.remember, hg, Bool.false_eq_true, dite_false]
  exact .pure _ fun s hs => ⟨rfl, hs⟩

/-- After the last glyph the phases give the end, and would give it again. -/
theorem take_nil :
    Gives (·.Shows [] e) (Source.take : ScanM Phases Glyph) fun h s => h = e ∧ s.Primed [] e := by
  rintro s ⟨gs, name, trailing, hs, hj, he⟩
  change ∃ h s, Splice.take _ = _ ∧ _
  refine (Splice.onBelow_gives (Splice.spliceAll_gives hj) s.state.ending).bind (fun r => ?_) s ⟨hs, rfl⟩
  obtain ⟨removed, k⟩ := r
  rintro t ⟨⟨hr, ⟨⟩, hs'⟩, ht⟩
  refine (ScanM.view_gives (P := fun s => s.below.Shows name [] ∧ s.ending = _) Splice.ending).bind
    (fun x => ?_) t ⟨hs', ht⟩
  rintro u ⟨⟨hu, hx⟩, rfl⟩
  cases hx' : s.state.ending with
  | some y =>
    rw [hx'] at he hx
    simp only [Glyph.isEof, hx]
    refine ⟨_, u, rfl, he.1.symm, [], ⟨name, [], hu, rfl, ?_⟩, rfl⟩
    rw [hx]
    exact ⟨he.1, by simp⟩
  | none =>
    rw [hx'] at he hx
    simp only [Glyph.isEof, hx]
    obtain rfl : e = .eof name trailing := he
    refine (Splice.decorate_eof (P := fun s => s.below.Shows name []) hr).bind (fun h => .of_prop ?_) u hu
    rintro rfl
    refine (Splice.remember_gives (P := fun s : Trigraph File => s.Shows name []) rfl).bind
      fun _ => .pure _ fun s hs => ⟨rfl, [], ⟨name, [], hs.1, rfl, ?_⟩, rfl⟩
    rw [hs.2]
    exact ⟨rfl, by simp⟩

theorem Ends.cons {ending : Option { g : Glyph // g.isEof = true }} {name : Option String}
    {trailing : List Glyph} (h : Ends ending name gs trailing e) (hg : g.is '\n' = false) :
    Ends ending name (g :: gs) trailing e := by
  cases ending with
  | none => exact h
  | some x => exact ⟨h.1, List.forall_mem_cons.2 ⟨hg, h.2⟩⟩

/-- **The glyph that was given last can be given back.** -/
theorem giveBack_past :
    Gives (·.Past g w e) (Source.giveBack g : ScanM Phases Unit) fun _ s => s.Primed (g :: w) e := by
  rintro s ⟨hg, name, trailing, k, gs, hp, hv, hj, hss, he⟩
  obtain ⟨u, s', hs, hf, hx⟩ := Splice.onBelow_gives (Trigraph.giveBack_past hg hv.symm) s.state.ending
    s ⟨hp, rfl⟩
  refine ⟨u, s', hs, g :: gs, ⟨name, trailing, hf, ?_, ?_⟩, rfl⟩
  · rw [Glyph.startsSplice_congr hv] at hss
    rw [Glyph.joinLines_cons hss, hj, Glyph.attach_nil]
  · rw [hx]
    cases hy : s.state.ending with
    | none => rwa [hy] at he
    | some y =>
      rw [hy] at he
      refine (he.suffix (List.suffix_cons k gs)).cons ?_
      rw [Glyph.is, ← hv]
      exact he.2 k (by simp)

/-- A glyph of an inert character can be given back at any time. -/
theorem Shows.past {c : Char} (h : s.Shows w e) (hg : g.Placed) (hv : g.value? = some c)
    (hc : Text.isInert c) : s.Past g w e := by
  obtain ⟨gs, name, trailing, hs, hj, he⟩ := h
  simp only [Text.isInert, Bool.and_eq_true, bne_iff_ne] at hc
  refine ⟨hg, name, trailing, g, gs, hs.past hg (by simpa [hv] using hc.1.1), rfl, hj, ?_, he.cons ?_⟩
  · exact Glyph.startsSplice_of_ne (by simpa [Glyph.is, hv] using hc.1.2) gs
  · simpa [Glyph.is, hv] using hc.2

/-- A backslash can be given back unless a line feed follows. -/
theorem Primed.past (h : s.Primed w e) (hg : g.Placed) (hb : g.is '\\')
    (hss : startsSplice (g :: w) = false) : s.Past g w e := by
  obtain ⟨gs, ⟨name, trailing, hs, hj, he⟩, hh⟩ := h
  have hv := Glyph.is_iff.1 hb
  refine ⟨hg, name, trailing, g, gs, hs.past hg (by rw [hv]; decide), rfl, hj, ?_, he.cons ?_⟩
  · match gs, w, hh, hss with
    | [], [], _, _ => rfl
    | n :: gs, _ :: w, rfl, hss => exact hss
  · rw [Glyph.is, hv]
    rfl

/-- **A backslash that is given back in front of a line feed becomes a splice.** Nothing is lost, but
both are now behind the glyph that comes next, or behind the end. -/
theorem giveBack_resplice {b n : Glyph} (hp : b.Placed) (hb : b.is '\\') (hn : n.is '\n') :
    Gives (·.Primed (n :: w) e) (Source.giveBack b : ScanM Phases Unit) fun _ s =>
      ∃ w' e', s.Shows w' e' ∧
        Glyph.leavesAll w' ++ e'.leaves = Glyph.leavesAll (b :: n :: w) ++ e.leaves ∧
        ∀ g ∈ w'.head?, b.leaves.length < g.leaves.length := by
  rintro s ⟨gs, ⟨name, trailing, hs, hj, he⟩, hh⟩
  obtain ⟨gs, rfl⟩ : ∃ gs', gs = n :: gs' := by
    match gs, hh with
    | _ :: gs, rfl => exact ⟨gs, rfl⟩
  have hpl := hs.placed
  obtain ⟨u, s', hs', hf, hx⟩ := Splice.onBelow_gives
    (Trigraph.giveBack_shows hp (by rw [Glyph.is_iff.1 hb]; decide)) s.state.ending s ⟨hs, rfl⟩
  have hx' : s.state.ending = none := by
    cases hy : s.state.ending with
    | none => rfl
    | some y =>
      rw [hy] at he
      exact absurd (he.2 n (by simp)) (by rw [hn]; decide)
  rw [hx'] at he hx
  have hj' : joinLines [] (b :: n :: gs) = joinLines [b, n] gs := Glyph.joinLines_splice hb hn [] gs
  refine ⟨u, s', hs', (joinLines [b, n] gs).1, .eof name (joinLines [b, n] gs).2,
    ⟨b :: n :: gs, name, _, hf, hj', by rw [hx]; rfl⟩, ?_, fun g hg => ?_⟩
  · have hl := @Glyph.leavesAll_joinLines [b, n] gs
      (by simpa [hp, forall_and] using hpl)
    have hl' := @Glyph.leavesAll_joinLines [] (n :: gs) (by simpa using hpl)
    rw [hj] at hl'
    obtain rfl : e = .eof name trailing := he
    simp only [Glyph.leaves] at hl hl' ⊢
    rw [hl, Glyph.leavesAll.eq_2 b (n :: w), List.append_assoc b.leaves, hl']
    simp [Glyph.leavesAll]
  · have := Glyph.leaves_head_joinLines (fun p hp => hpl p (by simp [hp])) hg
    simp only [Glyph.leavesAll, List.append_nil, List.length_append] at this
    omega

/-! ## Whole texts -/

/-- At the beginning of a text the phases are about to give the text after both phases. -/
theorem ofFile_shows {feed : Feed} {cs : List Char} (h : feed.Supplies (Utf8.encode cs))
    (name : Option String) (trigraphs : Bool) {gs : List Glyph}
    (hgs : Glyph.phaseOne trigraphs (Glyph.inscribe name .origin (Text.unifyLineEnds cs)) = gs) :
    (ofFile (.ofFeed feed name) trigraphs).Shows (joinLines [] gs).1 (.eof name (joinLines [] gs).2) :=
  ⟨gs, name, (joinLines [] gs).2,
    ⟨_, File.ofFeed_holds h name, fun _ => Glyph.placed_of_mem_inscribe, hgs⟩, rfl, rfl⟩

theorem spelling_ofFile (name : Option String) (trigraphs : Bool) (cs : List Char) :
    Glyph.spelling (joinLines [] (Glyph.phaseOne trigraphs (Glyph.inscribe name .origin cs))).1 =
      Text.spliceLines (if trigraphs then Text.replaceTrigraphs cs else cs) := by
  have hp : ∀ g ∈ Glyph.inscribe name .origin cs, g.Placed := fun _ => Glyph.placed_of_mem_inscribe
  rw [Glyph.spelling_joinLines [] (Glyph.placed_of_mem_phaseOne hp), Glyph.spelling_phaseOne hp,
    Glyph.spelling_inscribe]

/-- Draining gives the glyphs that the phases show, and the end. -/
theorem drain_gives (w : List Glyph) :
    Gives (·.Shows w e) (Source.drain : ScanM Phases _) fun r s => r = (w, .ok e) ∧ s.Shows [] e := by
  induction w with
  | nil =>
    intro s hs
    obtain ⟨g, s', ht, rfl, hp⟩ := take_nil s hs
    exact ⟨_, s', Source.drain_end ht hs.isEof, rfl, hp.shows⟩
  | cons g w ih =>
    intro s hs
    obtain ⟨g, s', ht, rfl, hp⟩ := take_cons s hs
    have hg : g.isEof = false := (hs.placed g (by simp)).isEof
    obtain ⟨r, s'', hr, rfl, hs''⟩ := ih s' hp.shows
    exact ⟨_, s'', Source.drain_cons ht hg hr, rfl, hs''⟩

/-- **The phases are their definition on whole texts.** Whatever the pieces in which the bytes of a
text arrive, what is drained shows the text with its line ends unified, its trigraphs replaced if
that is enabled, and its lines spliced. Each glyph has the pairs that were deleted in front of it, in
order, as its first parts; the end has those that nothing follows. -/
theorem drain_eq {feed : Feed} {cs : List Char} (h : feed.Supplies (Utf8.encode cs))
    (name : Option String) (trigraphs : Bool) :
    ∃ (pieces : List (List Glyph × Glyph)) (trailing : List Glyph),
      (Source.drain.run (ofFile (.ofFeed feed name) trigraphs)).1 =
        .ok (pieces.map fun p => attach p.1 p.2, .ok (.eof name trailing)) ∧
      Glyph.spelling (pieces.map fun p => attach p.1 p.2) = Text.spliceLines
        (if trigraphs then Text.replaceTrigraphs (Text.unifyLineEnds cs) else Text.unifyLineEnds cs) ∧
      pieces.flatMap (fun p => p.1 ++ [p.2]) ++ trailing =
        Glyph.phaseOne trigraphs (Glyph.inscribe name .origin (Text.unifyLineEnds cs)) ∧
      (∀ p ∈ pieces, Glyph.Splices p.1) ∧ Glyph.Splices trailing := by
  have hw := ofFile_shows h name trigraphs rfl
  obtain ⟨r, hd, rfl, -⟩ := ScanM.run_of_gives (drain_gives _) hw
  obtain ⟨pieces, hpieces, hflat, hsplices⟩ := Glyph.exists_pieces []
    (Glyph.phaseOne trigraphs (Glyph.inscribe name .origin (Text.unifyLineEnds cs)))
  obtain ⟨hall, htrailing⟩ := hsplices .nil
  refine ⟨pieces, _, ?_, ?_, hflat, hall, htrailing⟩
  · rw [hd, hpieces]
  · rw [← hpieces, spelling_ofFile]

/-- The second backslash is a trigraph and is spliced with the line feed; the first one stays. The pair
at the end lies behind the end. -/
theorem drain_eq_backslashes :
    Feed.Supplies [.bytes [92, 63], .bytes [63, 47, 13, 97, 92, 10]]
      (Utf8.encode ['\\', '?', '?', '/', '\r', 'a', '\\', '\n']) ∧
    ∃ (pieces : List (List Glyph × Glyph)) (trailing : List Glyph),
      (Source.drain.run (ofFile (.ofFeed [.bytes [92, 63], .bytes [63, 47, 13, 97, 92, 10]] none) true)).1 =
        .ok (pieces.map fun p => attach p.1 p.2, .ok (.eof none trailing)) ∧
      Glyph.spelling (pieces.map fun p => attach p.1 p.2) = ['\\', 'a'] ∧
      pieces.flatMap (fun p => p.1 ++ [p.2]) ++ trailing = Glyph.phaseOne true
        (Glyph.inscribe none .origin ['\\', '?', '?', '/', '\n', 'a', '\\', '\n']) ∧
      (∀ p ∈ pieces, Glyph.Splices p.1) ∧ Glyph.Splices trailing := by
  have h : Feed.Supplies [.bytes [92, 63], .bytes [63, 47, 13, 97, 92, 10]]
      (Utf8.encode ['\\', '?', '?', '/', '\r', 'a', '\\', '\n']) :=
    .piece 92 [63] (.piece 63 [47, 13, 97, 92, 10] .nil)
  exact ⟨h, drain_eq h none true⟩

end Phases

end Pretoken
