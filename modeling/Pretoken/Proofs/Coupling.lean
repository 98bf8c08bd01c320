import Mathlib.Data.List.Forall2
import Pretoken.Proofs.Fitting
import Pretoken.Proofs.Triple
import Pretoken.Scanner.Token

/-!
# Two sources in step

Two scanners that read the same characters from different sources make the same moves. What the
sources have to promise for this is a `Coupling`: glyphs taken from them show the same characters, and
giving back what was taken last, or an inert character, keeps them in step. An identifier may end by
giving back a backslash; after it the sources are only `Loose`.

* `Coupling`: what two sources promise to each other.
* `Coupling.Twin`: two scanners with related sources and drafts that look alike.
* **`Coupling.readToken_beside`**: two tokens are read alike.
-/

namespace Pretoken

open ScanM (Beside)

theorem forall_mem_of_forall₂ {α β : Type} {R : α → β → Prop} {P : α → Prop} {as : List α} {bs : List β}
    (hab : List.Forall₂ R as bs) (h : ∀ a b, R a b → P a) : ∀ a ∈ as, P a := by
  induction hab with
  | nil => nofun
  | cons hr _ ih => exact List.forall_mem_cons.2 ⟨h _ _ hr, ih⟩

/-- What two sources promise to each other. -/
structure Coupling (σ τ : Type) [Source σ] [Source τ] where
  /-- Glyphs that may be read in place of each other. -/
  Like : Glyph → Glyph → Prop
  /-- The sources are about to give glyphs that are alike. -/
  InStep : σ → τ → Prop
  /-- The sources have given two glyphs and would be in step if these were given back. -/
  Past : Glyph → Glyph → σ → τ → Prop
  /-- The sources are in step, and the next glyphs were given back or are ends. -/
  Primed : σ → τ → Prop
  /-- The sources after an identifier. -/
  Loose : σ → τ → Prop
  value_eq : ∀ {g h}, Like g h → g.value? = h.value?
  placed : ∀ {g h}, Like g h → g.Placed ∧ h.Placed
  like_merged : ∀ {d : Digraph} {gs hs}, gs ≠ [] → List.Forall₂ Like gs hs →
    Like (.merged d.primary gs) (.merged d.primary hs)
  inStep_of_primed : ∀ {s t}, Primed s t → InStep s t
  inStep_of_past : ∀ {g h s t}, Past g h s t → InStep s t
  past_of_inert : ∀ {g h c s t}, Like g h → g.value? = some c → Text.isInert c = true → InStep s t →
    Past g h s t
  take : Beside InStep Source.take Source.take fun g h s t =>
    (g.isEof = true ∧ h.isEof = true ∧ Primed s t ∧ Loose s t) ∨ (Like g h ∧ Past g h s t)
  giveBack_past : ∀ {g h}, Like g h → Beside (Past g h) (Source.giveBack g) (Source.giveBack h)
    fun _ _ s t => Primed s t ∧ (g.is '\\' = false → Loose s t)
  giveBack_backslash : ∀ {g h}, Like g h → g.is '\\' = true →
    Beside Primed (Source.giveBack g) (Source.giveBack h) fun _ _ => Loose

namespace Coupling

variable {σ τ : Type} [Source σ] [Source τ] (C : Coupling σ τ)

open Scanner

/-! ## Moves -/

/-- The scanners have the drafts `d` and `d'`, the last glyphs first, and sources related by `R`. -/
def At (R : σ → τ → Prop) (d d' : List Glyph) (s : Scanner σ) (t : Scanner τ) : Prop :=
  s.draft.newestFirst = d ∧ t.draft.newestFirst = d' ∧ R s.source t.source

/-- The scanners have drafts that are alike and sources related by `R`. -/
def Twin (R : σ → τ → Prop) (s : Scanner σ) (t : Scanner τ) : Prop :=
  List.Forall₂ C.Like s.draft.newestFirst t.draft.newestFirst ∧ R s.source t.source

variable {C} {g h : Glyph} {d d' : List Glyph}

omit [Source σ] [Source τ] in
theorem At.mono {R R' : σ → τ → Prop} {s : Scanner σ} {t : Scanner τ} (hs : At R d d' s t)
    (hR : ∀ {s t}, R s t → R' s t) : At R' d d' s t :=
  ⟨hs.1, hs.2.1, hR hs.2.2⟩

theorem At.twin {R : σ → τ → Prop} {s : Scanner σ} {t : Scanner τ} (hs : At R d d' s t)
    (hd : List.Forall₂ C.Like d d') : C.Twin R s t := by
  obtain ⟨rfl, rfl, hr⟩ := hs
  exact ⟨hd, hr⟩

theorem of_at {α β : Type} {R : σ → τ → Prop} {m : ScanM (Scanner σ) α} {n : ScanM (Scanner τ) β}
    {Q : α → β → Scanner σ → Scanner τ → Prop}
    (hm : ∀ d d', List.Forall₂ C.Like d d' → Beside (At R d d') m n Q) : Beside (C.Twin R) m n Q :=
  fun s t hs => hm _ _ hs.1 s t ⟨rfl, rfl, hs.2⟩

omit [Source σ] [Source τ] in
theorem onSource_beside {α β : Type} {P : σ → τ → Prop} {m : ScanM σ α} {n : ScanM τ β}
    {Q : α → β → σ → τ → Prop} (hm : Beside P m n Q) :
    Beside (At P d d') (onSource m) (onSource n) fun a b => At (Q a b) d d' :=
  ScanM.onState_beside hm (fun _ _ hs => hs.2.2) fun _ _ hs _ _ _ _ hq => ⟨hs.1, hs.2.1, hq⟩

/-- Look at the next glyphs: they are both ends, or they are alike. -/
theorem next_bind {α β : Type} {f : Glyph → ScanM (Scanner σ) α} {f' : Glyph → ScanM (Scanner τ) β}
    {Q : α → β → Scanner σ → Scanner τ → Prop}
    (hend : ∀ g h, g.isEof = true → h.isEof = true →
      Beside (fun s t => At C.Primed d d' s t ∧ At C.Loose d d' s t) (f g) (f' h) Q)
    (hlike : ∀ g h, C.Like g h → Beside (At (C.Past g h) d d') (f g) (f' h) Q) :
    Beside (At C.InStep d d') (next >>= f) (next >>= f') Q := by
  refine (onSource_beside C.take).bind fun g h => ?_
  rintro s t ⟨hd, hd', ⟨hg, hh, hp, hl⟩ | ⟨hl, hp⟩⟩
  · exact hend g h hg hh s t ⟨⟨hd, hd', hp⟩, hd, hd', hl⟩
  · exact hlike g h hl s t ⟨hd, hd', hp⟩

omit [Source σ] [Source τ] in
theorem keep_any {R : σ → τ → Prop} :
    Beside (At R d d') (keep g) (keep h) fun _ _ => At R (g :: d) (h :: d') :=
  ScanM.change_beside fun s t hs => by
    obtain ⟨rfl, rfl, hr⟩ := hs
    exact ⟨rfl, rfl, hr⟩

theorem keep_beside :
    Beside (At (C.Past g h) d d') (keep g) (keep h) fun _ _ => At C.InStep (g :: d) (h :: d') :=
  keep_any.post fun _ _ _ _ hs => hs.mono C.inStep_of_past

theorem keep_twin (hl : C.Like g h) (hd : List.Forall₂ C.Like d d') :
    Beside (At (C.Past g h) d d') (keep g) (keep h) fun _ _ => C.Twin C.InStep :=
  keep_beside.post fun _ _ _ _ hs => hs.twin (.cons hl hd)

theorem putBack_beside (hl : C.Like g h) :
    Beside (At (C.Past g h) d d') (putBack g) (putBack h) fun _ _ s t =>
      At C.Primed d d' s t ∧ (g.is '\\' = false → At C.Loose d d' s t) := by
  have hg := C.placed hl
  unfold putBack Source.restore
  rw [hg.1.isEof, hg.2.isEof, if_neg (by decide), if_neg (by decide)]
  refine (onSource_beside (C.giveBack_past hl)).post fun _ _ s t hs => ?_
  exact ⟨⟨hs.1, hs.2.1, hs.2.2.1⟩, fun hb => ⟨hs.1, hs.2.1, hs.2.2.2 hb⟩⟩

theorem putBack_twin (hl : C.Like g h) (hd : List.Forall₂ C.Like d d') :
    Beside (At (C.Past g h) d d') (putBack g) (putBack h) fun _ _ => C.Twin C.InStep :=
  (putBack_beside hl).post fun _ _ _ _ hs =>
    (hs.1.mono C.inStep_of_primed).twin hd

theorem putBack_eof (hg : g.isEof = true) : (putBack g : ScanM (Scanner σ) Unit) = pure () := by
  unfold putBack Source.restore
  rw [if_pos hg]
  rfl

theorem undo_beside {R R' : σ → τ → Prop}
    (hm : Beside R (Source.giveBack g) (Source.giveBack h) fun _ _ => R') :
    Beside (At R (g :: d) (h :: d')) undo undo fun _ _ => At R' d d' := by
  rintro ⟨⟨s, ⟨_⟩⟩, log⟩ ⟨⟨t, ⟨_⟩⟩, log'⟩ ⟨rfl, rfl, hr⟩
  exact onSource_beside hm _ _ ⟨rfl, rfl, hr⟩

/-- A glyph shows an inert character. -/
def Inert (g : Glyph) : Prop := ∃ c, g.value? = some c ∧ Text.isInert c = true

/-- A glyph of an inert character can be put back even after others. -/
theorem putBack_inert (hl : C.Like g h) (hg : Inert g) :
    Beside (C.Twin C.InStep) (putBack g) (putBack h) fun _ _ => C.Twin C.InStep := by
  obtain ⟨c, hc, hi⟩ := hg
  exact of_at fun d d' hd => (putBack_twin hl hd).pre fun s t hs => hs.mono (C.past_of_inert hl hc hi)

theorem undo_inert (hl : C.Like g h) (hg : Inert g) :
    Beside (At C.InStep (g :: d) (h :: d')) undo undo fun _ _ => At C.Primed d d' := by
  obtain ⟨c, hc, hi⟩ := hg
  have hback := (C.giveBack_past hl).pre fun s t hs => C.past_of_inert hl hc hi hs
  exact undo_beside (hback.post fun _ _ _ _ hs => hs.1)

theorem undo_backslash (hl : C.Like g h) (hb : g.is '\\' = true) :
    Beside (At C.Primed (g :: d) (h :: d')) undo undo fun _ _ => At C.Loose d d' :=
  undo_beside (C.giveBack_backslash hl hb)

theorem undoMany_beside {top top' : List Glyph} (hl : List.Forall₂ C.Like top top')
    (hi : ∀ g ∈ top, Inert g) (hne : top ≠ []) :
    Beside (At C.InStep (top ++ d) (top' ++ d')) (undoMany top.length) (undoMany top.length)
      fun _ _ => At C.Primed d d' := by
  induction hl with
  | nil => exact absurd rfl hne
  | @cons g h top top' hgh hl ih =>
    refine (undo_inert hgh (hi g (by simp))).bind fun _ _ => ?_
    cases hl with
    | nil => exact .pure _ _ fun _ _ hs => hs
    | cons =>
      exact (ih (fun p hp => hi p (by simp [hp])) (by simp)).pre fun _ _ hs => hs.mono C.inStep_of_primed

/-! ## Classes of characters -/

theorem accept_beside (p : Char → Bool) :
    Beside (At C.InStep d d') (accept p) (accept p) fun a b s t => a = b ∧
      ((a = false ∧ At C.Primed d d' s t) ∨ (a = true ∧ ∃ g h, C.Like g h ∧ g.value?.any p = true ∧
        At C.InStep (g :: d) (h :: d') s t)) := by
  refine next_bind (fun g h hg hh => ?_) fun g h hl => ?_
  · rw [Glyph.value?_eq_none_iff.2 hg, Glyph.value?_eq_none_iff.2 hh, putBack_eof hg, putBack_eof hh]
    exact .pure _ _ fun s t hs => ⟨rfl, .inl ⟨rfl, hs.1⟩⟩
  · rw [← C.value_eq hl]
    split
    · next hp =>
      exact keep_beside.bind fun _ _ => .pure _ _ fun s t hs => ⟨rfl, .inr ⟨rfl, g, h, hl, hp, hs⟩⟩
    · exact (putBack_beside hl).bind fun _ _ => .pure _ _ fun s t hs => ⟨rfl, .inl ⟨rfl, hs.1⟩⟩

theorem accept_twin (p : Char → Bool) :
    Beside (C.Twin C.InStep) (accept p) (accept p) fun a b s t => a = b ∧ C.Twin C.InStep s t := by
  refine of_at fun d d' hd => (accept_beside p).post ?_
  rintro a b s t ⟨rfl, ⟨-, hs⟩ | ⟨-, g, h, hl, -, hs⟩⟩
  · exact ⟨rfl, (hs.mono C.inStep_of_primed).twin hd⟩
  · exact ⟨rfl, hs.twin (.cons hl hd)⟩

theorem acceptUpTo_beside {p : Char → Bool} (hp : ∀ c, p c = true → Text.isInert c = true) (n : Nat) :
    Beside (At C.InStep d d') (acceptUpTo p n) (acceptUpTo p n) fun a b s t => a = b ∧
      ∃ top top', top.length = a ∧ List.Forall₂ C.Like top top' ∧ (∀ g ∈ top, Inert g) ∧
        At C.InStep (top ++ d) (top' ++ d') s t := by
  induction n generalizing d d' with
  | zero => exact .pure _ _ fun s t hs => ⟨rfl, [], [], rfl, .nil, by simp, hs⟩
  | succ n ih =>
    refine (accept_beside p).bind fun a b => ?_
    rintro s t ⟨rfl, ⟨rfl, hs⟩ | ⟨rfl, g, h, hl, hg, hs⟩⟩
    · exact ⟨rfl, [], [], rfl, .nil, by simp, hs.mono C.inStep_of_primed⟩
    · refine Lockstep.bind ih (fun m m' => ?_) s t hs
      rintro s t ⟨rfl, top, top', hlen, htop, hi, hs⟩
      refine ⟨rfl, top ++ [g], top' ++ [h], by simp [hlen], ?_, ?_, by simpa using hs⟩
      · exact List.rel_append htop (.cons hl .nil)
      · obtain ⟨c, hc, hpc⟩ := (Option.any_eq_true p _).1 hg
        intro q hq
        rcases List.mem_append.1 hq with hq | hq
        · exact hi q hq
        · rw [List.mem_singleton.1 hq]
          exact ⟨c, hc, hp c hpc⟩

theorem acceptWhile_beside (p : Char → Bool) :
    Beside (C.Twin C.InStep) (acceptWhile p) (acceptWhile p) fun _ _ => C.Twin C.InStep := by
  refine ScanM.loop_beside (fun _ _ => Lockstep.map ((accept_twin p).post ?_)) () ()
  rintro a b s t ⟨rfl, hs⟩
  cases a <;> exact hs

/-! ## Up to a closing mark -/

/-- Both loops go on, or both are done. -/
abbrev OneTurn (C : Coupling σ τ) : Turn Unit Unit → Turn Unit Unit → Scanner σ → Scanner τ → Prop :=
  Turn.Pair (fun _ _ => C.Twin C.InStep) fun _ _ => C.Twin C.InStep

theorem again_beside :
    Beside (C.Twin C.InStep) (pure (.again ())) (pure (.again ())) (OneTurn C) :=
  .pure _ _ fun _ _ hs => hs

theorem done_beside : Beside (C.Twin C.InStep) (pure (.done ())) (pure (.done ())) (OneTurn C) :=
  .pure _ _ fun _ _ hs => hs

/-- Look at the next glyphs. At the end a turn is done. -/
theorem turn_beside {f : Glyph → ScanM (Scanner σ) (Turn Unit Unit)}
    {f' : Glyph → ScanM (Scanner τ) (Turn Unit Unit)}
    (hend : ∀ g, g.isEof = true → f g = pure (.done ()))
    (hend' : ∀ g, g.isEof = true → f' g = pure (.done ()))
    (hlike : ∀ g h c d d', C.Like g h → List.Forall₂ C.Like d d' → g.value? = some c → h.value? = some c →
      Beside (At (C.Past g h) d d') (f g) (f' h) (OneTurn C)) :
    Beside (C.Twin C.InStep) (next >>= f) (next >>= f') (OneTurn C) := by
  refine of_at fun d d' hd => next_bind (fun g h hg hh => ?_) fun g h hl => ?_
  · rw [hend g hg, hend' h hh]
    exact .pure _ _ fun s t hs => (hs.1.mono C.inStep_of_primed).twin hd
  · obtain ⟨c, hc⟩ := (C.placed hl).1.exists_value
    exact hlike g h c d d' hl hd hc ((C.value_eq hl).symm.trans hc)

theorem commentTurn_beside (u v : Unit) :
    Beside (C.Twin C.InStep) (commentTurn u) (commentTurn v) (OneTurn C) := by
  refine turn_beside (fun g hg => by rw [if_pos hg]) (fun g hg => by rw [if_pos hg])
    fun g h c d d' hl hd hc hc' => ?_
  have hg := C.placed hl
  simp only [hg.1.isEof, hg.2.isEof, Bool.false_eq_true, if_false]
  refine (keep_twin hl hd).bind fun _ _ => .ite (by simp [Glyph.is, hc, hc']) (fun _ => ?_) fun _ => ?_
  · refine (accept_twin _).bind fun a b => .of_prop ?_
    rintro rfl
    exact .ite Iff.rfl (fun _ => done_beside) fun _ => again_beside
  · exact again_beside

theorem blockComment_beside :
    Beside (C.Twin C.InStep) blockComment blockComment fun _ _ => C.Twin C.InStep :=
  ScanM.loop_beside commentTurn_beside () ()

theorem headerTurn_beside (closing : Char) (u v : Unit) :
    Beside (C.Twin C.InStep) (headerTurn closing u) (headerTurn closing v) (OneTurn C) := by
  refine turn_beside (fun g hg => by rw [Glyph.value?_eq_none_iff.2 hg])
    (fun g hg => by rw [Glyph.value?_eq_none_iff.2 hg]) fun g h c d d' hl hd hc hc' => ?_
  rw [hc, hc']
  refine .ite Iff.rfl (fun _ => ?_) fun _ => ?_
  · exact (putBack_twin hl hd).bind fun _ _ => done_beside
  · exact (keep_twin hl hd).bind fun _ _ => .ite Iff.rfl (fun _ => done_beside) fun _ => again_beside

theorem headerName_beside (closing : Char) :
    Beside (C.Twin C.InStep) (headerName closing) (headerName closing) fun _ _ => C.Twin C.InStep :=
  ScanM.loop_beside (headerTurn_beside closing) () ()

theorem discard_beside {α : Type} {m : ScanM (Scanner σ) α} {n : ScanM (Scanner τ) α}
    (hm : Beside (C.Twin C.InStep) m n fun _ _ => C.Twin C.InStep) :
    Beside (C.Twin C.InStep) (discard m) (discard n) fun _ _ => C.Twin C.InStep :=
  Lockstep.map hm

theorem acceptUpTo_twin (p : Char → Bool) (n : Nat) :
    Beside (C.Twin C.InStep) (acceptUpTo p n) (acceptUpTo p n) fun _ _ => C.Twin C.InStep := by
  induction n with
  | zero => exact .pure _ _ fun s t hs => hs
  | succ n ih =>
    refine (accept_twin p).bind fun a b => .of_prop ?_
    rintro rfl
    refine .ite Iff.rfl (fun _ => ih.bind fun _ _ => ?_) fun _ => ?_
    · exact .pure _ _ fun s t hs => hs
    · exact .pure _ _ fun s t hs => hs

theorem escape_beside : Beside (C.Twin C.InStep) escape escape fun _ _ => C.Twin C.InStep := by
  have upTo (p : Char → Bool) (n : Nat) :
      Beside (C.Twin C.InStep) (discard (acceptUpTo p n)) (discard (acceptUpTo p n))
        fun _ _ => C.Twin C.InStep := discard_beside (acceptUpTo_twin p n)
  refine of_at fun d d' hd => next_bind (fun g h hg hh => ?_) fun g h hl => ?_
  · rw [Glyph.value?_eq_none_iff.2 hg, Glyph.value?_eq_none_iff.2 hh]
    exact .pure _ _ fun s t hs => (hs.1.mono C.inStep_of_primed).twin hd
  · obtain ⟨c, hc⟩ := (C.placed hl).1.exists_value
    rw [← C.value_eq hl, hc]
    refine .ite Iff.rfl (fun _ => putBack_twin hl hd) fun _ => (keep_twin hl hd).bind fun _ _ => ?_
    refine .ite Iff.rfl (fun _ => upTo _ _) fun _ => ?_
    refine .ite Iff.rfl (fun _ => acceptWhile_beside _) fun _ => ?_
    refine .ite Iff.rfl (fun _ => upTo _ _) fun _ => .ite Iff.rfl (fun _ => upTo _ _) fun _ => ?_
    exact .pure _ _ fun s t hs => hs

theorem literalTurn_beside (quote : Char) (u v : Unit) :
    Beside (C.Twin C.InStep) (literalTurn quote u) (literalTurn quote v) (OneTurn C) := by
  refine turn_beside (fun g hg => by rw [Glyph.value?_eq_none_iff.2 hg])
    (fun g hg => by rw [Glyph.value?_eq_none_iff.2 hg]) fun g h c d d' hl hd hc hc' => ?_
  rw [hc, hc']
  refine .ite Iff.rfl (fun _ => (putBack_twin hl hd).bind fun _ _ => done_beside) fun _ => ?_
  refine (keep_twin hl hd).bind fun _ _ => .ite Iff.rfl (fun _ => done_beside) fun _ => ?_
  exact .ite Iff.rfl (fun _ => escape_beside.bind fun _ _ => again_beside) fun _ => again_beside

theorem literal_beside (quote : Char) :
    Beside (C.Twin C.InStep) (literal quote) (literal quote) fun _ _ => C.Twin C.InStep :=
  ScanM.loop_beside (literalTurn_beside quote) () ()

/-! ## Identifiers and numbers -/

theorem isInert_of_isHex {c : Char} (h : isHex c = true) : Text.isInert c = true :=
  Text.isInert_of_class (p := isHex) (by decide) h

/-- If there are enough digits, they are kept; else all is as before the letter. -/
theorem universalDigits_beside (hl : C.Like g h) (hg : Inert g) (hd : List.Forall₂ C.Like d d') (n : Nat) :
    Beside (At C.InStep (g :: d) (h :: d')) (universalDigits n) (universalDigits n) fun a b s t =>
      a = b ∧ ((a = true ∧ C.Twin C.InStep s t) ∨ (a = false ∧ At C.Primed d d' s t)) := by
  refine (acceptUpTo_beside (fun _ => isInert_of_isHex) n).bind fun a b => .of_prop ?_
  rintro rfl
  refine .of_exists fun top => .of_exists fun top' => .of_prop fun hlen => .of_prop fun htop =>
    .of_prop fun hi => .ite Iff.rfl (fun _ => ?_) fun _ => ?_
  · exact .pure _ _ fun s t hs => ⟨rfl, .inl ⟨rfl, hs.twin (List.rel_append htop (.cons hl hd))⟩⟩
  · refine (onSource_beside (ScanM.view_beside _ _)).bind fun x y => ?_
    refine (ScanM.emit_beside _ _).bind fun _ _ => ?_
    have hi' : ∀ q ∈ top ++ [g], Inert q := by
      intro q hq
      rcases List.mem_append.1 hq with hq | hq
      · exact hi q hq
      · rwa [List.mem_singleton.1 hq]
    have hu := @undoMany_beside _ _ _ _ C d d' _ _ (List.rel_append htop (.cons hl .nil)) hi' (by simp)
    rw [List.length_append, List.length_singleton, hlen] at hu
    refine (hu.pre fun s t hs => ?_).bind fun _ _ =>
      .pure _ _ fun s t hs => ⟨rfl, .inr ⟨rfl, hs⟩⟩
    simpa using hs.mono And.left

theorem universalTail_beside (hd : List.Forall₂ C.Like d d') :
    Beside (At C.InStep d d') universalTail universalTail fun a b s t =>
      a = b ∧ ((a = true ∧ C.Twin C.InStep s t) ∨ (a = false ∧ At C.Primed d d' s t)) := by
  refine next_bind (fun g h hg hh => ?_) fun g h hl => ?_
  · have hg' := Glyph.value?_eq_none_iff.2 hg
    have hh' := Glyph.value?_eq_none_iff.2 hh
    simp only [Glyph.is, hg', hh', putBack_eof hg, putBack_eof hh]
    exact .pure _ _ fun s t hs => ⟨rfl, .inr ⟨rfl, hs.1⟩⟩
  · have hv := C.value_eq hl
    refine .ite (by simp [Glyph.is, hv]) (fun hu => ?_) fun _ => .ite (by simp [Glyph.is, hv])
      (fun hu => ?_) fun _ => ?_
    · exact keep_beside.bind fun _ _ => universalDigits_beside hl ⟨'u', Glyph.is_iff.1 hu, rfl⟩ hd 4
    · exact keep_beside.bind fun _ _ => universalDigits_beside hl ⟨'U', Glyph.is_iff.1 hu, rfl⟩ hd 8
    · exact (putBack_beside hl).bind fun _ _ => .pure _ _ fun s t hs => ⟨rfl, .inr ⟨rfl, hs.1⟩⟩

/-- A turn of an identifier. When it is done, a backslash may have been given back. -/
theorem identifierTurn_beside [Alphabet] (u v : Unit) :
    Beside (C.Twin C.InStep) (identifierTurn u) (identifierTurn v)
      (Turn.Pair (fun _ _ => C.Twin C.InStep) fun _ _ => C.Twin C.Loose) := by
  refine of_at fun d d' hd => next_bind (fun g h hg hh => ?_) fun g h hl => ?_
  · rw [Glyph.value?_eq_none_iff.2 hg, Glyph.value?_eq_none_iff.2 hh]
    exact .pure _ _ fun s t hs => hs.2.twin hd
  · obtain ⟨c, hc⟩ := (C.placed hl).1.exists_value
    rw [← C.value_eq hl, hc]
    refine .ite Iff.rfl (fun _ => ?_) fun _ => .ite Iff.rfl (fun hb => ?_) fun hb => ?_
    · exact (keep_twin hl hd).bind fun _ _ => .pure _ _ fun s t hs => hs
    · refine keep_beside.bind fun _ _ => (universalTail_beside (.cons hl hd)).bind fun a b => .of_prop ?_
      rintro rfl
      refine .ite Iff.rfl (fun ha => ?_) fun ha => ?_
      · refine .pure _ _ fun s t hs => ?_
        rcases hs with ⟨-, hs⟩ | ⟨hf, -⟩
        · exact hs
        · exact absurd (ha.symm.trans hf) (by decide)
      · have hb' : g.is '\\' = true := Glyph.is_iff.2 (by rw [hc, hb])
        refine ((undo_backslash hl hb').pre fun s t hs => ?_).bind fun _ _ =>
          .pure _ _ fun s t hs => hs.twin hd
        rcases hs with ⟨ht, -⟩ | ⟨-, hs⟩
        · exact absurd ht ha
        · exact hs
    · refine (putBack_beside hl).bind fun _ _ => .pure _ _ fun s t hs => (hs.2 ?_).twin hd
      rw [Bool.eq_false_iff, Ne, Glyph.is_iff, hc, Option.some.injEq]
      exact hb

theorem identifier_beside [Alphabet] :
    Beside (C.Twin C.InStep) Scanner.identifier Scanner.identifier fun _ _ => C.Twin C.Loose :=
  ScanM.loop_beside identifierTurn_beside () ()

theorem afterExponent_eq {R : σ → τ → Prop} {s : Scanner σ} {t : Scanner τ} (hs : C.Twin R s t) :
    afterExponent s = afterExponent t := by
  have hd := hs.1
  unfold afterExponent Draft.last?
  generalize s.draft.newestFirst = d, t.draft.newestFirst = d' at hd ⊢
  cases hd with
  | nil => rfl
  | cons hl _ => simp [C.value_eq hl]

theorem numberTurn_beside [Alphabet] (u v : Unit) :
    Beside (C.Twin C.InStep) (numberTurn u) (numberTurn v) (OneTurn C) := by
  refine (ScanM.view_beside _ _).bind fun a b => ?_
  rintro s t ⟨hs, rfl, rfl⟩
  rw [afterExponent_eq hs]
  refine turn_beside (fun g hg => by rw [Glyph.value?_eq_none_iff.2 hg])
    (fun g hg => by rw [Glyph.value?_eq_none_iff.2 hg]) (fun g h c d d' hl hd hc hc' => ?_) s t hs
  rw [hc, hc']
  exact .ite Iff.rfl (fun _ => (keep_twin hl hd).bind fun _ _ => again_beside) fun _ =>
    (putBack_twin hl hd).bind fun _ _ => done_beside

theorem number_beside [Alphabet] :
    Beside (C.Twin C.InStep) Scanner.number Scanner.number fun _ _ => C.Twin C.InStep :=
  ScanM.loop_beside numberTurn_beside () ()

/-! ## Punctuators -/

/-- Revisions of drafts that are alike are alike, or break the same contract. -/
def Revises (C : Coupling σ τ) (f : Draft → Except Violation Draft) : Prop :=
  ∀ d d' : Draft, List.Forall₂ C.Like d.newestFirst d'.newestFirst → match f d, f d' with
    | .ok e, .ok e' => List.Forall₂ C.Like e.newestFirst e'.newestFirst
    | .error v, .error v' => v = v'
    | _, _ => False

theorem revise_beside {R : σ → τ → Prop} {f : Draft → Except Violation Draft} (hf : Revises C f) :
    Beside (C.Twin R) (revise f) (revise f) fun _ _ => C.Twin R := by
  rintro s t ⟨hd, hr⟩
  have h := hf _ _ hd
  unfold revise
  match f s.state.draft, f t.state.draft, h with
  | .ok e, .ok e', h => exact ⟨h, hr⟩
  | .error v, .error v', h => exact congrArg Fault.violation h

theorem merge_pair (hl : C.Like g h) {g' h' : Glyph} (hl' : C.Like g' h') (dg : Digraph) :
    Glyph.merge dg.primary [g, g'] = .ok (.merged dg.primary [g, g']) ∧
      Glyph.merge dg.primary [h, h'] = .ok (.merged dg.primary [h, h']) ∧
      C.Like (.merged dg.primary [g, g']) (.merged dg.primary [h, h']) := by
  have hp := C.placed hl
  have hp' := C.placed hl'
  refine ⟨Glyph.merge_eq _ (by simp) ?_, Glyph.merge_eq _ (by simp) ?_,
    C.like_merged (by simp) (.cons hl (.cons hl' .nil))⟩
  · simpa using ⟨hp.1, hp'.1⟩
  · simpa using ⟨hp.2, hp'.2⟩

theorem revises_collapse (dg : Digraph) : Revises C (·.collapse dg.primary) := by
  rintro ⟨d⟩ ⟨d'⟩ hd
  change List.Forall₂ C.Like d d' at hd
  match d, d', hd with
  | [], [], _ => rfl
  | [_], [_], _ => rfl
  | _ :: _ :: _, _ :: _ :: _, .cons hl' (.cons hl hd) =>
    obtain ⟨h₁, h₂, hm⟩ := merge_pair hl hl' dg
    simp only [Draft.collapse, h₁, h₂]
    exact .cons hm hd

theorem revises_collapseTwo (a b : Digraph) : Revises C (·.collapseTwo a.primary b.primary) := by
  rintro ⟨d⟩ ⟨d'⟩ hd
  change List.Forall₂ C.Like d d' at hd
  match d, d', hd with
  | [], [], _ => rfl
  | [_], [_], _ => rfl
  | [_, _], [_, _], _ => rfl
  | [_, _, _], [_, _, _], _ => rfl
  | _ :: _ :: _ :: _ :: _, _ :: _ :: _ :: _ :: _, .cons hl₄ (.cons hl₃ (.cons hl₂ (.cons hl₁ hd))) =>
    obtain ⟨h₁, h₂, hm⟩ := merge_pair hl₁ hl₂ a
    obtain ⟨h₃, h₄, hm'⟩ := merge_pair hl₃ hl₄ b
    simp only [Draft.collapseTwo, h₁, h₂, h₃, h₄]
    exact .cons hm' (.cons hm hd)

theorem sharpDigraph_beside :
    Beside (C.Twin C.InStep) Scanner.sharpDigraph Scanner.sharpDigraph fun _ _ => C.Twin C.InStep := by
  refine of_at fun d d' hd => next_bind (fun g h hg hh => ?_) fun g h hl => ?_
  · have hg' := Glyph.value?_eq_none_iff.2 hg
    have hh' := Glyph.value?_eq_none_iff.2 hh
    simp only [Glyph.is, hg', hh', putBack_eof hg, putBack_eof hh]
    refine ((revise_beside (revises_collapse _)).pre fun s t hs => ?_).bind fun _ _ =>
      .pure _ _ fun s t hs => hs
    exact (hs.1.mono C.inStep_of_primed).twin hd
  · have hv := C.value_eq hl
    have collapsed : Beside (C.Twin C.InStep) (revise (·.collapse Digraph.sharp.primary))
      (revise (·.collapse Digraph.sharp.primary)) fun _ _ => C.Twin C.InStep :=
        revise_beside (revises_collapse _)
    refine .ite (by simp [Glyph.is, hv]) (fun hp => ?_) fun hp => ?_
    · have hi : Inert g := ⟨'%', Glyph.is_iff.1 hp, rfl⟩
      refine (next_bind (C := C) (fun k k' hk hk' => ?_) fun k k' hkl => ?_).pre
        fun s t hs => hs.mono C.inStep_of_past
      · have hk₁ := Glyph.value?_eq_none_iff.2 hk
        have hk₂ := Glyph.value?_eq_none_iff.2 hk'
        simp only [Glyph.is, hk₁, hk₂, putBack_eof hk, putBack_eof hk']
        exact ((putBack_inert hl hi).pre fun s t hs => (hs.1.mono C.inStep_of_primed).twin hd).bind
          fun _ _ => collapsed
      · refine .ite (by simp [Glyph.is, C.value_eq hkl]) (fun _ => ?_) fun _ => ?_
        · refine keep_any.bind fun _ _ => keep_any.bind fun _ _ => ?_
          refine (revise_beside (revises_collapseTwo _ _)).pre fun s t hs => ?_
          exact (hs.mono C.inStep_of_past).twin (.cons hkl (.cons hl hd))
        · exact (putBack_twin hkl hd).bind fun _ _ => (putBack_inert hl hi).bind fun _ _ => collapsed
    · exact ((revise_beside (revises_collapse _)).pre fun s t hs => hs.twin hd).bind fun _ _ =>
        of_at fun d d' hd => putBack_twin hl hd

/-! ## Following a table -/

/-- After an identifier the sources are loose, after anything else they are in step. -/
def Settled (C : Coupling σ τ) (a b : TokenKind) (s : Scanner σ) (t : Scanner τ) : Prop :=
  a = b ∧ if a = .identifier then C.Twin C.Loose s t else C.Twin C.InStep s t

theorem settled_of_ne {k : TokenKind} (hk : k ≠ .identifier) {s : Scanner σ} {t : Scanner τ}
    (hs : C.Twin C.InStep s t) : C.Settled k k s t := by
  rw [Settled, if_neg hk]
  exact ⟨rfl, hs⟩

/-- The scanners are in step, and if `inert` says so, the last glyphs kept are inert. -/
def Topped (C : Coupling σ τ) (inert : Bool) (s : Scanner σ) (t : Scanner τ) : Prop :=
  C.Twin C.InStep s t ∧ (inert = true → ∃ g ∈ s.draft.newestFirst.head?, Inert g)

theorem finish_beside {m : ScanM (Scanner σ) Unit} {n : ScanM (Scanner τ) Unit} {k : TokenKind}
    (hk : k ≠ .identifier) {inert : Bool}
    (hm : Beside (C.Twin C.InStep) m n fun _ _ => C.Twin C.InStep) :
    Beside (C.Topped inert) (do m; return k) (do n; return k) C.Settled :=
  (hm.pre fun _ _ hs => hs.1).bind fun _ _ =>
    .pure _ _ fun _ _ hs => settled_of_ne hk hs

theorem identifier_settled [Alphabet] {inert : Bool} :
    Beside (C.Topped inert) (Routine.identifier.run) (Routine.identifier.run) C.Settled :=
  (identifier_beside.pre fun _ _ hs => hs.1).bind fun _ _ =>
    .pure _ _ fun _ _ hs => ⟨rfl, hs⟩

theorem of_topped {α β : Type} {m : ScanM (Scanner σ) α} {n : ScanM (Scanner τ) β}
    {Q : α → β → Scanner σ → Scanner τ → Prop}
    (hm : ∀ g h d d', C.Like g h → Inert g → List.Forall₂ C.Like d d' →
      Beside (At C.InStep (g :: d) (h :: d')) m n Q) : Beside (C.Topped true) m n Q := by
  rintro s t ⟨⟨hd, hs⟩, hi⟩
  obtain ⟨g, hg, hi⟩ := hi rfl
  generalize hx : s.state.draft.newestFirst = x, hy : t.state.draft.newestFirst = y at hd hg
  match x, y, hd, hg with
  | _ :: d, h :: d', .cons hl hd, rfl => exact hm g h d d' hl hi hd s t ⟨hx, hy, hs⟩

theorem Routine.run_beside [Alphabet] {r : Routine} {n : Nat} {inert : Bool} (hr : r.fits n inert = true) :
    Beside (C.Topped inert) r.run r.run C.Settled := by
  cases r with
  | blanks => exact finish_beside (by decide) (acceptWhile_beside _)
  | directiveBlanks => exact finish_beside (by decide) (acceptWhile_beside _)
  | blockComment => exact finish_beside (by decide) blockComment_beside
  | lineComment => exact finish_beside (by decide) (acceptWhile_beside _)
  | literal quote kind =>
    have hk : kind.isName = false := by simpa [Routine.fits] using hr
    exact finish_beside (TokenKind.ne_identifier hk) (literal_beside quote)
  | headerName closing kind =>
    have hk : kind.isName = false := by simpa [Routine.fits] using hr
    exact finish_beside (TokenKind.ne_identifier hk) (headerName_beside closing)
  | identifier => exact identifier_settled
  | universalName digits =>
    obtain ⟨rfl, -⟩ : inert = true ∧ 2 ≤ n := by simpa [Routine.fits] using hr
    refine of_topped fun g h d d' hl hi hd => (universalDigits_beside hl hi hd digits).bind fun a b =>
      .of_prop ?_
    rintro rfl
    refine .ite Iff.rfl (fun ha => ?_) fun ha => ?_
    · refine (identifier_beside.pre fun s t hs => ?_).bind fun _ _ =>
        .pure _ _ fun _ _ hs => ⟨rfl, hs⟩
      rcases hs with ⟨-, hs⟩ | ⟨hf, -⟩
      · exact hs
      · exact absurd (ha.symm.trans hf) (by decide)
    · refine .pure _ _ fun s t hs => settled_of_ne (by decide) ?_
      rcases hs with ⟨ht, -⟩ | ⟨-, hs⟩
      · exact absurd ht ha
      · exact (hs.mono C.inStep_of_primed).twin hd
  | number => exact finish_beside (by decide) number_beside
  | ellipsis =>
    obtain ⟨rfl, -⟩ : inert = true ∧ 2 ≤ n := by simpa [Routine.fits] using hr
    refine of_topped fun g h d d' hl hi hd => (accept_beside _).bind fun a b => .of_prop ?_
    rintro rfl
    refine .ite Iff.rfl (fun ha => ?_) fun ha => ?_
    · refine .pure _ _ fun s t hs => settled_of_ne (by decide) ?_
      rcases hs with ⟨hf, -⟩ | ⟨-, g', h', hl', -, hs⟩
      · exact absurd (ha.symm.trans hf) (by decide)
      · exact hs.twin (.cons hl' (.cons hl hd))
    · refine ((undo_inert hl hi).pre fun s t hs => ?_).bind fun _ _ =>
        .pure _ _ fun _ _ hs => settled_of_ne (by decide) ((hs.mono C.inStep_of_primed).twin hd)
      rcases hs with ⟨-, hs⟩ | ⟨ht, -⟩
      · exact hs.mono C.inStep_of_primed
      · exact absurd ht ha
  | digraph dg => exact finish_beside (by decide) (revise_beside (revises_collapse _))
  | sharpDigraph kind =>
    have hk : 2 ≤ n ∧ kind.isName = false := by simpa [Routine.fits] using hr
    exact finish_beside (TokenKind.ne_identifier hk.2) sharpDigraph_beside
  | shift c =>
    have test (p : Char → Bool) :
        Beside (C.Twin C.InStep) (discard (accept p)) (discard (accept p)) fun _ _ => C.Twin C.InStep :=
      discard_beside ((accept_twin p).post fun _ _ _ _ hs => hs.2)
    refine ((test _).pre fun _ _ hs => hs.1).bind fun _ _ =>
      (test _).bind fun _ _ => .pure _ _ fun _ _ hs => settled_of_ne (by decide) hs

theorem Rule.run_beside [Alphabet] {r : Rule} {n : Nat} {inert : Bool} (hr : r.fits n inert = true) :
    Beside (C.Topped inert) r.run r.run C.Settled := by
  cases r with
  | fixed kind =>
    have hk : kind.isName = false := by simpa [Rule.fits] using hr
    exact .pure _ _ fun _ _ hs => settled_of_ne (TokenKind.ne_identifier hk) hs.1
  | routine r => exact Routine.run_beside hr

mutual

theorem Action.run_beside [Alphabet] : (action : Action) → (n : Nat) → (inert : Bool) → action.fits n inert = true →
    Beside (C.Topped inert) action.run action.run C.Settled
  | .finish rule, n, inert, h => by
    rw [Action.fits] at h
    exact Rule.run_beside h
  | .nested cases otherwise, n, inert, h => by
    rw [Action.fits, Bool.and_eq_true] at h
    rintro s t ⟨hs, hi⟩
    refine next_bind (fun g g' hg hg' => ?_) (fun g g' hl => ?_) s t ⟨rfl, rfl, hs.2⟩
    · -- at the end no case applies
      rw [Case.choose_eq, Case.choose_eq, Glyph.value?_eq_none_iff.2 hg, Glyph.value?_eq_none_iff.2 hg']
      simp only [Option.bind_none, putBack_eof hg, putBack_eof hg']
      refine (Rule.run_beside h.1).pre fun s' t' hs' => ?_
      exact ⟨(hs'.1.mono C.inStep_of_primed).twin hs.1, by rw [hs'.1.1]; exact hi⟩
    · exact Case.choose_beside cases otherwise n inert h.2 h.1 hl hs.1 hi

theorem Case.choose_beside [Alphabet] : (cases : List Case) → (otherwise : Rule) → (n : Nat) → (inert : Bool) →
    Case.allFit (n + 1) cases = true → otherwise.fits n inert = true → {g h : Glyph} →
    {d d' : List Glyph} → C.Like g h → List.Forall₂ C.Like d d' →
    (inert = true → ∃ k ∈ d.head?, Inert k) →
    Beside (At (C.Past g h) d d') (Case.choose cases otherwise g) (Case.choose cases otherwise h)
      C.Settled
  | [], otherwise, n, inert, _, ho, g, h, d, d', hl, hd, hi => by
    unfold Case.choose
    refine (putBack_beside hl).bind fun _ _ => (Rule.run_beside ho).pre fun s t hs => ?_
    exact ⟨(hs.1.mono C.inStep_of_primed).twin hd, by rw [hs.1.1]; exact hi⟩
  | ⟨chars, action⟩ :: cases, otherwise, n, inert, hc, ho, g, h, d, d', hl, hd, hi => by
    rw [Case.allFit, Bool.and_eq_true] at hc
    unfold Case.choose
    refine .ite (by rw [C.value_eq hl]) (fun hg => ?_) fun _ => ?_
    · refine keep_beside.bind fun _ _ => (Action.run_beside action (n + 1) chars.isInert hc.1).pre
        fun s t hs => ⟨hs.twin (.cons hl hd), fun hin => ?_⟩
      obtain ⟨c, hv, hc⟩ := (Option.any_eq_true _ _).1 hg
      rw [CharSet.isInert, Bool.not_eq_true'] at hin
      exact ⟨g, by rw [hs.1]; rfl, c, hv, Text.isInert_of_class hin hc⟩
    · exact Case.choose_beside cases otherwise n inert hc.2 ho hl hd hi

end

/-! ## Tokens -/

/-- Tokens without children of the same kind, made of glyphs that are alike. -/
structure Alike (C : Coupling σ τ) (t u : Token) : Prop where
  glyphs : List.Forall₂ C.Like t.glyphs u.glyphs
  kind : t.kind = u.kind
  left_children : t.children = []
  right_children : u.children = []

theorem Alike.eq (hl : ∀ {g h}, C.Like g h → g = h) {t u : Token} (h : C.Alike t u) : t = u := by
  have hg : t.glyphs = u.glyphs := by
    have := h.glyphs
    generalize t.glyphs = gs, u.glyphs = hs at this
    induction this with
    | nil => rfl
    | cons hgh _ ih => rw [hl hgh, ih]
  obtain ⟨tg, tk, tc⟩ := t
  obtain ⟨ug, uk, uc⟩ := u
  obtain rfl : tg = ug := hg
  obtain rfl : tk = uk := h.kind
  obtain rfl : tc = [] := h.left_children
  obtain rfl : uc = [] := h.right_children
  rfl

theorem finish_alike {R : σ → τ → Prop} (k : TokenKind) :
    Beside (C.Twin R) (Scanner.finish k) (Scanner.finish k) fun t u s s' =>
      C.Alike t u ∧ t.kind = k ∧ At R [] [] s s' := by
  have made {gs : List Glyph} (hne : gs ≠ []) (h : ∀ g ∈ gs, g.Placed) :
      (Draft.mk gs).toToken k = .ok ⟨gs.reverse, k, []⟩ := by
    rw [Draft.toToken, if_neg (by simpa [Draft.isEmpty] using hne)]
    refine Token.make_eq_ok_iff.2 ⟨by simpa [Draft.glyphs] using hne, fun g hg => ?_, rfl⟩
    exact (h g (by simpa [Draft.glyphs] using hg)).isEof
  rintro ⟨⟨s, ⟨d⟩⟩, log⟩ ⟨⟨t, ⟨d'⟩⟩, log'⟩ ⟨hd, hr⟩
  change List.Forall₂ C.Like d d' at hd
  unfold Scanner.finish
  by_cases hne : d = []
  · subst hne
    obtain rfl := List.forall₂_nil_left_iff.1 hd
    rfl
  · have hne' : d' ≠ [] := by
      rintro rfl
      exact hne (List.forall₂_nil_right_iff.1 hd)
    have hp := forall_mem_of_forall₂ hd fun _ _ h => (C.placed h).1
    have hp' := forall_mem_of_forall₂ hd.flip fun _ _ h => (C.placed h).2
    simp only [made hne hp, made hne' hp']
    exact ⟨⟨List.rel_reverse hd, rfl, rfl, rfl⟩, rfl, rfl, rfl, hr⟩

/-- What came of reading a token on both sides. -/
def Read (C : Coupling σ τ) : Option Token → Option Token → Scanner σ → Scanner τ → Prop
  | none, none, s, t => At C.Primed [] [] s t
  | some a, some b, s, t => C.Alike a b ∧
      if a.kind = .identifier then At C.Loose [] [] s t else At C.InStep [] [] s t
  | _, _, _, _ => False

/-- **Tokens are read alike.** -/
theorem readToken_beside [Alphabet] {table : Table} (hf : table.fits = true) :
    Beside (At C.InStep [] []) (readToken table) (readToken table) C.Read := by
  refine next_bind (fun g h hg hh => ?_) fun g h hl => ?_
  · rw [Glyph.value?_eq_none_iff.2 hg, Glyph.value?_eq_none_iff.2 hh]
    exact .pure _ _ fun s t hs => hs.1
  · obtain ⟨lead, hc⟩ := (C.placed hl).1.exists_value
    rw [← C.value_eq hl, hc]
    refine (keep_twin hl .nil).bind fun _ _ => ?_
    have hrest : Beside (C.Topped false) (readRest table lead) (readRest table lead) C.Settled := by
      unfold readRest
      split
      · next action ha => exact Action.run_beside action 1 false (Table.fits_of_lookup hf ha)
      · refine .ite Iff.rfl (fun _ => identifier_settled) fun _ => ?_
        exact .pure _ _ fun s t hs => settled_of_ne (by decide) hs.1
    refine (hrest.pre fun s t hs => ⟨hs, nofun⟩).bind fun k k' => .of_prop ?_
    rintro rfl
    by_cases hk : k = .identifier
    · simp only [hk, if_true]
      refine (finish_alike _).bind fun a b => .pure _ _ fun s t hs => ⟨hs.1, ?_⟩
      rw [hs.2.1, if_pos rfl]
      exact hs.2.2
    · simp only [hk, if_false]
      refine (finish_alike _).bind fun a b => .pure _ _ fun s t hs => ⟨hs.1, ?_⟩
      rw [hs.2.1, if_neg hk]
      exact hs.2.2

end Coupling

end Pretoken
