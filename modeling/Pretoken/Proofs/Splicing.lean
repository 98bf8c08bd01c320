import Pretoken.Proofs.RoundTrip

/-!
# Splices do not change the tokens

In a text without backslashes, pairs of a backslash and a line feed may be inserted anywhere: the tokens
keep their kinds and their values.

* `Text.Inserted`: a text and the same text with such pairs inserted.
* `Phases.mirror`: two runs of the phases that show the same characters.
* `Phases.readToken_mirror`, `Phases.readDirective_mirror`, `Lexer.nextToken_mirror`: both give tokens of the
  same kind and value.
* **`Lexer.tokens_inserted`**: so do the two texts.
-/

namespace Pretoken

/-! ## Texts -/

namespace Text

/-- The second text is the first one with pairs of a backslash and a line feed inserted. -/
inductive Inserted : List Char → List Char → Prop
  | nil : Inserted [] []
  | char (c : Char) {cs ds : List Char} : Inserted cs ds → Inserted (c :: cs) (c :: ds)
  | pair {cs ds : List Char} : Inserted cs ds → Inserted cs ('\\' :: '\n' :: ds)

/-- No trigraph occurs in the text. -/
def TrigraphFree (cs : List Char) : Prop :=
  ∀ c v, trigraphs.lookup c = some v → ¬ ['?', '?', c] <:+: cs

variable {cs ds : List Char}

theorem unifyLineEnds_of_notMem (h : '\r' ∉ cs) : unifyLineEnds cs = cs := by
  induction cs with
  | nil => rfl
  | cons c cs ih =>
    rw [List.mem_cons, not_or] at h
    rw [unifyLineEnds_cons (Ne.symm h.1), ih h.2]

theorem replaceTrigraphs_of_free (h : TrigraphFree cs) : replaceTrigraphs cs = cs := by
  induction cs with
  | nil => rfl
  | cons c cs ih =>
    rw [replaceTrigraphs_cons, ih fun x v hx hi => h x v hx (List.infix_cons hi)]
    rintro x ds rfl rfl
    cases hx : trigraphs.lookup x with
    | none => rfl
    | some v => exact absurd (List.IsPrefix.isInfix ⟨ds, rfl⟩) (h x v hx)

/-- The first phase leaves a text alone that has neither carriage returns nor trigraphs. -/
theorem phaseOne_eq_self {trigraphs : Bool} (hr : '\r' ∉ cs) (ht : trigraphs = true → TrigraphFree cs) :
    (if trigraphs then replaceTrigraphs (unifyLineEnds cs) else unifyLineEnds cs) = cs := by
  rw [unifyLineEnds_of_notMem hr]
  split
  · next h => exact replaceTrigraphs_of_free (ht h)
  · rfl

theorem spliceLines_of_notMem (h : '\\' ∉ cs) : spliceLines cs = cs := by
  induction cs with
  | nil => rfl
  | cons c cs ih =>
    rw [List.mem_cons, not_or] at h
    rw [spliceLines, ih h.2]
    rintro ds rfl -
    exact h.1 rfl

namespace Inserted

theorem notMem_return (h : Inserted cs ds) (hr : '\r' ∉ cs) : '\r' ∉ ds := by
  induction h with
  | nil => exact hr
  | char c _ ih =>
    rw [List.mem_cons, not_or] at hr ⊢
    exact ⟨hr.1, ih hr.2⟩
  | pair _ ih => simpa using ih hr

/-- What is free of backslashes and begins the new text begins the old one. -/
theorem isPrefix (h : Inserted cs ds) {l : List Char} (hl : '\\' ∉ l) (hp : l <+: ds) : l <+: cs := by
  induction h generalizing l with
  | nil => exact hp
  | char c _ ih =>
    cases l with
    | nil => exact List.nil_prefix
    | cons x l =>
      rw [List.cons_prefix_cons] at hp ⊢
      rw [List.mem_cons, not_or] at hl
      exact ⟨hp.1, ih hl.2 hp.2⟩
  | pair _ _ =>
    cases l with
    | nil => exact List.nil_prefix
    | cons x l =>
      rw [List.cons_prefix_cons] at hp
      exact absurd (by simp [hp.1]) hl

theorem isInfix (h : Inserted cs ds) {l : List Char} (hl : '\\' ∉ l ∧ '\n' ∉ l) (hi : l <:+: ds) :
    l <:+: cs := by
  induction h with
  | nil => exact hi
  | char c h ih =>
    rcases List.infix_cons_iff.1 hi with hp | hi
    · exact ((Inserted.char c h).isPrefix hl.1 hp).isInfix
    · exact List.infix_cons (ih hi)
  | pair h ih =>
    rcases List.infix_cons_iff.1 hi with hp | hi
    · exact (h.pair.isPrefix hl.1 hp).isInfix
    · rcases List.infix_cons_iff.1 hi with hp | hi
      · cases l with
        | nil => exact List.nil_infix
        | cons x l =>
          rw [List.cons_prefix_cons] at hp
          exact absurd (by simp [hp.1]) hl.2
      · exact ih hi

theorem trigraphFree (h : Inserted cs ds) (hf : TrigraphFree cs) : TrigraphFree ds := by
  intro c v hc hi
  refine hf c v hc (h.isInfix ?_ hi)
  have hne : c ≠ '\\' ∧ c ≠ '\n' := by
    constructor <;> rintro rfl <;> cases hc
  simpa [eq_comm] using hne

theorem spliceLines_eq (h : Inserted cs ds) (hb : '\\' ∉ cs) : spliceLines ds = cs := by
  induction h with
  | nil => rfl
  | char c _ ih =>
    rw [List.mem_cons, not_or] at hb
    rw [spliceLines, ih hb.2]
    rintro ds rfl -
    exact hb.1 rfl
  | pair _ ih => rw [spliceLines, ih hb]

end Inserted

end Text

/-! ## Tokens of the same text -/

namespace Token

/-- The tokens have the same kind and the same value. -/
def SameText (t u : Token) : Prop := t.kind = u.kind ∧ t.value = u.value

/-- The tokens have the same kind and the same value, and so have their children. -/
def SameTexts (t u : Token) : Prop := t.SameText u ∧ List.Forall₂ SameText t.children u.children

variable {t u : Token}

theorem SameText.reserve (h : t.SameText u) (reserved : List String) :
    (t.reserve reserved).SameText (u.reserve reserved) := by
  refine ⟨?_, by rw [value_reserve, value_reserve, h.2]⟩
  unfold Token.reserve
  rw [h.1, h.2]
  split
  · rfl
  · exact h.1

theorem SameText.mark (h : t.SameText u) (place : LinePlace) :
    (place.mark t).SameText (place.mark u) := by
  unfold LinePlace.mark LinePlace.names
  rw [h.1, h.2]
  split
  · exact ⟨rfl, h.2⟩
  · exact h

theorem SameText.next_eq (h : t.SameText u) (place : LinePlace) : place.next t = place.next u := by
  unfold LinePlace.next
  rw [h.1, h.2]

end Token

/-! ## Two runs that show the same characters -/

namespace Phases

open ScanM (Beside)

/-- The glyphs show the same character, which is no backslash. -/
def Like (g h : Glyph) : Prop :=
  g.value? = h.value? ∧ g.Placed ∧ h.Placed ∧ g.is '\\' = false

/-- The phases are to give glyphs that show the same characters. -/
def InStep (s t : Phases) : Prop :=
  ∃ w e w' e', s.Shows w e ∧ t.Shows w' e' ∧ List.Forall₂ Like w w'

/-- **Two runs of the phases that show the same characters.** -/
def mirror : Coupling Phases Phases where
  Like := Like
  InStep := InStep
  Past g h s t := Like g h ∧ ∃ w e w' e', s.Past g w e ∧ t.Past h w' e' ∧ List.Forall₂ Like w w'
  Primed s t := ∃ w e w' e', s.Primed w e ∧ t.Primed w' e' ∧ List.Forall₂ Like w w'
  Loose := InStep
  value_eq h := h.1
  placed h := ⟨h.2.1, h.2.2.1⟩
  like_merged := by
    intro d gs hs hne h
    refine ⟨rfl, Glyph.placed_merged _ hne ?_, Glyph.placed_merged _ ?_ ?_, by cases d <;> rfl⟩
    · exact forall_mem_of_forall₂ h fun _ _ hl => hl.2.1
    · rintro rfl
      exact hne (List.forall₂_nil_right_iff.1 h)
    · exact forall_mem_of_forall₂ h.flip fun _ _ hl => hl.2.2.1
  inStep_of_primed := fun ⟨w, e, w', e', hs, ht, hw⟩ => ⟨w, e, w', e', hs.shows, ht.shows, hw⟩
  inStep_of_past := fun ⟨_, w, e, w', e', hs, ht, hw⟩ => ⟨w, e, w', e', hs.shows, ht.shows, hw⟩
  past_of_inert := by
    rintro g h c s t hl hv hc ⟨w, e, w', e', hs, ht, hw⟩
    exact ⟨hl, w, e, w', e', hs.past hl.2.1 hv hc, ht.past hl.2.2.1 (hl.1 ▸ hv) hc, hw⟩
  take := by
    rintro s t ⟨w, e, w', e', hs, ht, hw⟩
    cases hw with
    | nil =>
      obtain ⟨g, s', hs', rfl, hp⟩ := take_nil s hs
      obtain ⟨h, t', ht', rfl, hq⟩ := take_nil t ht
      rw [hs', ht']
      exact .inl ⟨hs.isEof, ht.isEof, ⟨[], _, [], _, hp, hq, .nil⟩,
        [], _, [], _, hp.shows, hq.shows, .nil⟩
    | cons hl hw =>
      obtain ⟨g, s', hs', rfl, hp⟩ := take_cons s hs
      obtain ⟨h, t', ht', rfl, hq⟩ := take_cons t ht
      rw [hs', ht']
      exact .inr ⟨hl, hl, _, e, _, e', hp, hq, hw⟩
  giveBack_past := by
    rintro g h hl s t ⟨-, w, e, w', e', hs, ht, hw⟩
    obtain ⟨_, s', hs', hp⟩ := giveBack_past s hs
    obtain ⟨_, t', ht', hq⟩ := giveBack_past t ht
    rw [hs', ht']
    exact ⟨⟨g :: w, e, h :: w', e', hp, hq, .cons hl hw⟩, fun _ =>
      ⟨g :: w, e, h :: w', e', hp.shows, hq.shows, .cons hl hw⟩⟩
  giveBack_backslash := by
    intro g h hl hb
    exact absurd (hl.2.2.2.symm.trans hb) (by decide)

/-! ## Tokens -/

theorem spelling_eq_of_like {gs hs : List Glyph} (h : List.Forall₂ Like gs hs) :
    Glyph.spelling gs = Glyph.spelling hs := by
  induction h with
  | nil => rfl
  | cons hl _ ih =>
    obtain ⟨c, hc⟩ := hl.2.1.exists_value
    rw [Glyph.spelling_cons hc, Glyph.spelling_cons (hl.1.symm.trans hc), ih]

theorem sameText_of_alike {t u : Token} (h : mirror.Alike t u) : t.SameText u :=
  ⟨h.kind, by rw [Token.value, Token.value, spelling_eq_of_like h.glyphs]⟩

theorem like_of_spelling {w w' : List Glyph} (hw : ∀ g ∈ w, g.Placed) (hw' : ∀ g ∈ w', g.Placed)
    (h : Glyph.spelling w = Glyph.spelling w') (hb : '\\' ∉ Glyph.spelling w) : List.Forall₂ Like w w' := by
  induction w generalizing w' with
  | nil =>
    match w' with
    | [] => exact .nil
    | g :: w' =>
      obtain ⟨c, hc⟩ := (hw' g (by simp)).exists_value
      rw [Glyph.spelling_cons hc] at h
      cases h
  | cons g w ih =>
    obtain ⟨c, hc⟩ := (hw g (by simp)).exists_value
    rw [Glyph.spelling_cons hc] at h hb
    rw [List.mem_cons, not_or] at hb
    obtain ⟨g', w', rfl, hc', hs⟩ := Glyph.exists_of_spelling hw' h.symm
    rw [List.forall_mem_cons] at hw hw'
    refine .cons ⟨hc.trans hc'.symm, hw.1, hw'.1, ?_⟩ (ih hw.2 hw'.2 hs.symm hb.2)
    rw [Glyph.is, hc, beq_eq_false_iff_ne]
    exact fun h => hb.1 (Option.some.inj h).symm

/-- Two texts that the phases make the same are in step, if the result is free of backslashes. -/
theorem ofFile_inStep {cs ds : List Char} {feed feed' : Feed} (hf : feed.Supplies (Utf8.encode cs))
    (hf' : feed'.Supplies (Utf8.encode ds)) (name name' : Option String) (trigraphs : Bool)
    {text : List Char} (hb : '\\' ∉ text)
    (hcs : Text.spliceLines (if trigraphs then Text.replaceTrigraphs (Text.unifyLineEnds cs)
      else Text.unifyLineEnds cs) = text)
    (hds : Text.spliceLines (if trigraphs then Text.replaceTrigraphs (Text.unifyLineEnds ds)
      else Text.unifyLineEnds ds) = text) :
    InStep (ofFile (.ofFeed feed name) trigraphs) (ofFile (.ofFeed feed' name') trigraphs) := by
  have hs := ofFile_shows hf name trigraphs rfl
  have ht := ofFile_shows hf' name' trigraphs rfl
  refine ⟨_, _, _, _, hs, ht, like_of_spelling hs.placed ht.placed ?_ ?_⟩
  · rw [spelling_ofFile, spelling_ofFile, hcs, hds]
  · rwa [spelling_ofFile, hcs]

/-- Two scanners at the start of a token, over phases that show the same characters. -/
def Mirrored (s t : Scanner Phases) : Prop :=
  s.draft = .empty ∧ t.draft = .empty ∧ InStep s.source t.source

variable [Alphabet]

/-- **Two tokens are read alike.** -/
theorem readToken_mirror {table : Table} (hf : table.fits = true) {s t : Logged (Scanner Phases)}
    (h : Mirrored s.state t.state) :
    ∃ o o' s' t', Scanner.readToken table s = .ok o s' ∧ Scanner.readToken table t = .ok o' t' ∧
      Mirrored s'.state t'.state ∧
      Option.Rel (fun a b => a.SameText b ∧ a.children = [] ∧ b.children = []) o o' := by
  obtain ⟨hd, hd', hin⟩ := h
  obtain ⟨w', e', ht⟩ : ∃ w' e', t.state.source.Shows w' e' := by
    obtain ⟨_, _, w', e', -, ht, -⟩ := hin
    exact ⟨w', e', ht⟩
  obtain ⟨o, s', o', t', hs', ht', hq, -⟩ := (Coupling.readToken_beside (C := mirror) hf).total
    (ledger.readToken hf _) (s := s) (t := t) ⟨by rw [hd]; rfl, by rw [hd']; rfl, hin⟩
    ⟨hd', w', e', ht, rfl⟩
  refine ⟨o, o', s', t', hs', ht', ?_⟩
  match o, o', hq with
  | none, none, hq =>
    exact ⟨⟨congrArg Draft.mk hq.1, congrArg Draft.mk hq.2.1, mirror.inStep_of_primed hq.2.2⟩, .none⟩
  | some a, some b, hq =>
    refine ⟨?_, .some ⟨sameText_of_alike hq.1, hq.1.left_children, hq.1.right_children⟩⟩
    -- after an identifier and after anything else the runs are in step
    have h := hq.2
    split at h <;> exact ⟨congrArg Draft.mk h.1, congrArg Draft.mk h.2.1, h.2.2⟩

/-! ## Lines -/

/-- Two lines with tokens of the same text, over phases that show the same characters. -/
def LineMirrored (l r : DirectiveLine Phases) : Prop :=
  Mirrored l.scanner r.scanner ∧ List.Forall₂ Token.SameText l.children r.children

theorem lineTurn_mirror (reserved : List String) (place place' : LinePlace) :
    Beside (fun l r => place = place' ∧ LineMirrored l r) (DirectiveLine.lineTurn reserved place)
      (DirectiveLine.lineTurn reserved place')
      (Turn.Pair (fun c d l r => c = d ∧ LineMirrored l r) fun _ _ => LineMirrored) := by
  rintro l r ⟨rfl, hm, hc⟩
  obtain ⟨o, o', s, t, hs, ht, hm', ho⟩ := readToken_mirror place.fits (s := ⟨l.state.scanner, l.log⟩)
    (t := ⟨r.state.scanner, r.log⟩) hm
  cases ho with
  | none =>
    rw [DirectiveLine.lineTurn_none hs, DirectiveLine.lineTurn_none ht]
    exact ⟨hm', hc⟩
  | @some a b hab =>
    have hsame := hab.1.reserve reserved
    rw [DirectiveLine.lineTurn_some hs, DirectiveLine.lineTurn_some ht, hsame.next_eq]
    have hline : LineMirrored ⟨s.state, place.mark (a.reserve reserved) :: l.state.newestFirst⟩
        ⟨t.state, place.mark (b.reserve reserved) :: r.state.newestFirst⟩ :=
      ⟨hm', List.rel_reverse (.cons (hsame.mark place) (List.forall₂_reverse_iff.1 hc))⟩
    cases place.next (b.reserve reserved) with
    | again next => exact ⟨rfl, hline⟩
    | done => exact hline

/-- **The children of a directive are read alike.** -/
theorem readDirective_mirror (reserved : List String) {s t : Logged (Scanner Phases)}
    (h : Mirrored s.state t.state) :
    ∃ cs ds s' t', Scanner.readDirective reserved s = .ok cs s' ∧
      Scanner.readDirective reserved t = .ok ds t' ∧
      List.Forall₂ Token.SameText cs ds ∧ InStep s'.state.source t'.state.source := by
  obtain ⟨w, e, ht⟩ : ∃ w e, t.state.source.Shows w e := by
    obtain ⟨-, -, _, _, w, e, -, ht, -⟩ := h
    exact ⟨w, e, ht⟩
  have hloop : Beside (fun l r => LinePlace.name = .name ∧ LineMirrored l r)
      (DirectiveLine.readFrom reserved .name) (DirectiveLine.readFrom reserved .name)
      fun _ _ => LineMirrored := ScanM.loop_beside (lineTurn_mirror reserved) .name .name
  obtain ⟨_, l, _, r, hl, hr, ⟨hm, hc⟩, -⟩ := hloop.total (ledger.readFrom_gives [] _ reserved .name)
    (s := ⟨.ofScanner s.state, s.log⟩) (t := ⟨.ofScanner t.state, t.log⟩) ⟨rfl, h, .nil⟩
    ⟨h.2.1, [], _, rfl, ⟨w, e, ht, rfl⟩, rfl⟩
  exact ⟨_, _, _, _, Scanner.readDirective_ok hl, Scanner.readDirective_ok hr, hc, hm.2.2⟩

end Phases

/-! ## Texts -/

namespace Lexer

open Phases (InStep)

/-- Two lexers in the same state, over phases that show the same characters. -/
def Mirrored (l r : Lexer Phases) : Prop :=
  InStep l.source r.source ∧ l.reserved = r.reserved ∧ l.atLineStart = r.atLineStart

section

variable [Alphabet]

/-- **The next tokens are alike.** -/
theorem nextToken_mirror {l r : Logged (Lexer Phases)} (h : Mirrored l.state r.state) :
    ∃ o o' l' r', nextToken l = .ok o l' ∧ nextToken r = .ok o' r' ∧
      Option.Rel Token.SameTexts o o' ∧ Mirrored l'.state r'.state := by
  obtain ⟨hin, hres, hstart⟩ := h
  obtain ⟨o, o', s, t, hs, ht, ⟨-, -, hin'⟩, ho⟩ := Phases.readToken_mirror Table.fits_text
    (s := ⟨.ofSource l.state.source, l.log⟩) (t := ⟨.ofSource r.state.source, r.log⟩) ⟨rfl, rfl, hin⟩
  cases ho with
  | none => exact ⟨_, _, _, _, nextToken_none hs, nextToken_none ht, .none, hin', hres, hstart⟩
  | @some a b hab =>
    obtain ⟨hab, hac, hbc⟩ := hab
    by_cases hopens : Opens a l.state
    · have hopens' : Opens b r.state := ⟨hab.1 ▸ hopens.1, hab.2 ▸ hopens.2.1, hstart ▸ hopens.2.2⟩
      obtain ⟨cs, ds, s', t', hs', ht', hcd, hin''⟩ := Phases.readDirective_mirror l.state.reserved
        (s := ⟨.ofSource s.state.source, s.log⟩) (t := ⟨.ofSource t.state.source, t.log⟩) ⟨rfl, rfl, hin'⟩
      rw [hres] at ht'
      exact ⟨_, _, _, _, nextToken_directive hs hopens hs', nextToken_directive ht hopens' ht',
        .some ⟨⟨rfl, hab.2⟩, hcd⟩, hin'', hres, hstart⟩
    · have hopens' : ¬ Opens b r.state :=
        fun h => hopens ⟨hab.1 ▸ h.1, hab.2 ▸ h.2.1, hstart ▸ h.2.2⟩
      refine ⟨_, _, _, _, nextToken_plain hs hopens, nextToken_plain ht hopens', .some ⟨?_, ?_⟩, hin',
        hres, ?_⟩
      · rw [hres]
        exact hab.reserve r.state.reserved
      · rw [Token.children_reserve, Token.children_reserve, hac, hbc]
        exact .nil
      · dsimp only
        rw [startAfter, startAfter, hstart, hab.1, hab.2]

/-- **All tokens are alike.** -/
theorem tokens_mirror {l r : Logged (Lexer Phases)} (h : Mirrored l.state r.state) :
    ∃ ts us l' r', tokens l = .ok (ts, .ok ()) l' ∧ tokens r = .ok (us, .ok ()) r' ∧
      List.Forall₂ Token.SameTexts ts us := by
  -- on what the first lexer still has to read
  induction hm : measure l using Nat.strongRecOn generalizing l r with
  | ind m ih =>
    subst hm
    obtain ⟨o, o', l₁, r₁, hl₁, hr₁, ho, h₁⟩ := nextToken_mirror h
    cases ho with
    | none => exact ⟨[], [], l₁, r₁, tokens_none hl₁, tokens_none hr₁, .nil⟩
    | some hab =>
      have hless : measure l₁ < measure l := Nat.lt_of_succ_le (nextToken_within l _ l₁ hl₁)
      obtain ⟨ts, us, l', r', hl', hr', hts⟩ := ih _ hless h₁ rfl
      exact ⟨_, _, l', r', tokens_some hl₁ hl', tokens_some hr₁ hr', .cons hab hts⟩

/-- **Splices do not change the tokens.** Take a text without backslashes, without carriage returns and, if
trigraphs are enabled, without trigraphs, and the same text with pairs of a backslash and a line feed
inserted. All tokens of both are read. There are as many of one as of the other; they have the same kinds
and values, and so have their children. -/
theorem tokens_inserted {cs ds : List Char} (h : Text.Inserted cs ds) (hb : '\\' ∉ cs) (hr : '\r' ∉ cs)
    (trigraphs : Bool) (ht : trigraphs = true → Text.TrigraphFree cs) {feed feed' : Feed}
    (hf : feed.Supplies (Utf8.encode cs)) (hf' : feed'.Supplies (Utf8.encode ds)) (name name' : Option String)
    (reserved : List String) :
    ∃ ts us : List Token,
      (tokens.run (ofFile (.ofFeed feed name) trigraphs reserved)).1 = .ok (ts, .ok ()) ∧
      (tokens.run (ofFile (.ofFeed feed' name') trigraphs reserved)).1 = .ok (us, .ok ()) ∧
      List.Forall₂ Token.SameTexts ts us := by
  have hcs := Text.phaseOne_eq_self hr ht
  have hds := Text.phaseOne_eq_self (h.notMem_return hr) fun h' => h.trigraphFree (ht h')
  have hin := Phases.ofFile_inStep hf hf' name name' trigraphs hb
    (by rw [hcs, Text.spliceLines_of_notMem hb]) (by rw [hds, h.spliceLines_eq hb])
  obtain ⟨ts, us, l', r', hl', hr', hts⟩ := tokens_mirror
    (l := ⟨ofFile (.ofFeed feed name) trigraphs reserved, []⟩)
    (r := ⟨ofFile (.ofFeed feed' name') trigraphs reserved, []⟩) ⟨hin, rfl, rfl⟩
  refine ⟨ts, us, ?_, ?_, hts⟩
  · rw [ScanM.run, hl']
  · rw [ScanM.run, hr']

end

/-- A directive with splices at its start, in its name, between two question marks and at the end of the
text, where there are two. -/
theorem tokens_inserted_directive :
    Text.Inserted ['#', 'i', 'f', '?', '?', '\n']
      ['\\', '\n', '#', 'i', '\\', '\n', 'f', '?', '\\', '\n', '?', '\n', '\\', '\n', '\\', '\n'] ∧
    Text.TrigraphFree ['#', 'i', 'f', '?', '?', '\n'] ∧
    ∃ ts us : List Token,
      (tokens.run (ofFile (.ofFeed [.bytes [35, 105, 102, 63, 63, 10]] none) true ["if"])).1 = .ok (ts, .ok ()) ∧
      (tokens.run (ofFile (.ofFeed [.bytes [92, 10, 35, 105, 92],
        .bytes [10, 102, 63, 92, 10, 63, 10, 92, 10, 92, 10]] none) true ["if"])).1 = .ok (us, .ok ()) ∧
      List.Forall₂ Token.SameTexts ts us := by
  have h : Text.Inserted ['#', 'i', 'f', '?', '?', '\n']
      ['\\', '\n', '#', 'i', '\\', '\n', 'f', '?', '\\', '\n', '?', '\n', '\\', '\n', '\\', '\n'] :=
    .pair (.char _ (.char _ (.pair (.char _ (.char _ (.pair (.char _ (.char _ (.pair (.pair .nil))))))))))
  have ht : Text.TrigraphFree ['#', 'i', 'f', '?', '?', '\n'] := by
    intro c v hc hi
    have hn : c = '\n' := by simpa [List.infix_cons_iff] using hi
    subst hn
    cases hc
  exact ⟨h, ht, tokens_inserted h (by decide) (by decide) true (fun _ => ht) (Feed.supplies_single _)
    (.piece 92 [10, 35, 105, 92] (.piece 10 [102, 63, 92, 10, 63, 10, 92, 10, 92, 10] .nil)) none none ["if"]⟩

end Lexer

end Pretoken
