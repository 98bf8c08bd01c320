import Pretoken.Proofs.Contracts
import Pretoken.Proofs.Relexing
import Pretoken.Proofs.Rereading

/-!
# Joining tokens and reading them again

What two tokens are when they are joined is what their text is when it is read on its own. A joined token keeps its
characters, however; only if these are a digraph is that something else than a token that is read.

* `Digraph.entry`, `Munch.Spells`: how the tokens are written that are made of digraphs, and what they stand for.
* `Table.spells_text`: such a token is one digraph.
* `Token.lexemes_singleton`: a text that is a single token.
* `Token.kindOf_lexemes`: the kind of a text that is read on its own.
* **`Token.paste_relex`**: joined tokens are what their text is.
-/

namespace Pretoken

open Glyph (spelling)

/-! ## Digraphs -/

/-- The list of digraphs: how each is written, and what it stands for. -/
def Digraph.entry : Digraph → String × String
  | openBracket => ("<:", "[")
  | closeBracket => (":>", "]")
  | openBrace => ("<%", "\x7b")
  | closeBrace => ("%>", "\x7d")
  | sharp => ("%:", "#")
  | doubleSharp => ("%:%:", "##")

/-- The characters that the digraph stands for. -/
def Digraph.meaning (d : Digraph) : List Char := d.entry.2.toList

/-- If what comes of a token is digraphs, these are one that is written out, and show what it stands for. -/
def Munch.Spells (m : Munch) (cs : List Char) : Prop :=
  m.pairs ≠ [] → ∃ d : Digraph, cs.take m.length = d.spelling.toList ∧ m.pairs.map Digraph.primary = d.meaning

section Spells

variable {c x : Char} {cs : List Char} {other : Rule} {cases : List Case} {d : Digraph}

theorem Case.spells_digraph [Alphabet] (hd : d.spelling.toList = [c, x]) (hm : d.meaning = [d.primary])
    (hrest : (Case.munch (c :: cs) 1 other cases).Spells (c :: cs)) :
    (Case.munch (c :: cs) 1 other (Table.routine (.one x) (.digraph d) :: cases)).Spells (c :: cs) := by
  rw [Table.routine, Case.munch]
  split
  · next hx =>
    obtain ⟨y, hy, hxy⟩ := (Option.any_eq_true _ _).1 hx
    obtain rfl : x = y := by simpa [CharSet.contains] using hxy
    refine fun _ => ⟨d, ?_, hm.symm⟩
    rw [hd, Action.munch, Rule.munch, Routine.munch, List.take_succ_cons, List.take_add_one, List.take_zero]
    rw [List.getElem?_cons_succ] at hy
    rw [hy]
    rfl
  · exact hrest

theorem Case.spells_sharpDigraph [Alphabet] (k : TokenKind)
    (hrest : (Case.munch ('%' :: cs) 1 other cases).Spells ('%' :: cs)) :
    (Case.munch ('%' :: cs) 1 other (Table.routine (.one ':') (.sharpDigraph k) :: cases)).Spells ('%' :: cs) := by
  rw [Table.routine, Case.munch]
  split
  · next hx =>
    obtain ⟨y, hy, hxy⟩ := (Option.any_eq_true _ _).1 hx
    obtain rfl : ':' = y := by simpa [CharSet.contains] using hxy
    obtain ⟨cs, rfl⟩ : ∃ ds, cs = ':' :: ds := List.head?_eq_some_iff.1 (by rw [List.head?_eq_getElem?]; exact hy)
    rw [Action.munch, Rule.munch, Routine.munch]
    split
    · next h =>
      refine fun _ => ⟨.doubleSharp, ?_, rfl⟩
      have h0 : cs[0]? = some '%' := h.1
      have h1 : cs[1]? = some ':' := h.2
      simp [List.take_add_one, h0, h1, Digraph.spelling]
    · exact fun _ => ⟨.sharp, rfl, rfl⟩
  · exact hrest

theorem Munch.spells_of_nil {m : Munch} (h : m.pairs = []) (cs : List Char) : m.Spells cs := fun hp => absurd h hp

theorem Action.pairs_eq_nil [Alphabet] {action : Action} {n : Nat} (hs : action.sound n none = true)
    (h : action.gather Rule.pairKinds = []) : (action.munch cs n).pairs = [] := by
  obtain ⟨rule, k, o, hr, hf, -, heq⟩ := action.exists_rule cs n none hs
  rw [heq]
  refine Decidable.byContradiction fun hp => ?_
  have hk := hf Rule.pairKinds ((Rule.munch_paired hr).2 hp)
  rw [h] at hk
  cases hk

namespace Table

/-- Digraphs begin with one of three characters. -/
theorem pairKinds_eq_nil {action : Action} (hc : c ∉ ['<', ':', '%']) (h : text.lookup c = some action) :
    action.gather Rule.pairKinds = [] := by
  have hall : ∀ cases ∈ [textSpace, sharps .punctuator, common], ∀ case ∈ cases,
      case.action.gather Rule.pairKinds = [] ∨ case.chars.isOnly '<' = true ∨ case.chars.isOnly ':' = true ∨
        case.chars.isOnly '%' = true := by decide
  obtain ⟨cases, hcases, case, hcase, hcontains, rfl⟩ := exists_case_of_lookup (by decide) (by decide) h
  simp only [List.mem_cons, List.not_mem_nil, or_false, not_or] at hc
  rcases hall cases hcases case hcase with hnil | honly | honly | honly
  · exact hnil
  · exact absurd (CharSet.eq_of_isOnly honly hcontains) hc.1
  · exact absurd (CharSet.eq_of_isOnly honly hcontains) hc.2.1
  · exact absurd (CharSet.eq_of_isOnly honly hcontains) hc.2.2

/-- **A token that is made of digraphs is one of them.** -/
theorem spells_text [Alphabet] (c : Char) (cs : List Char) : (text.munch c (c :: cs)).Spells (c :: cs) := by
  by_cases hc : c ∉ ['<', ':', '%']
  · refine Munch.spells_of_nil ?_ _
    unfold munch
    split
    · next action ha => exact Action.pairs_eq_nil (sound_of_lookup sound_text ha) (pairKinds_eq_nil hc ha)
    · split <;> rfl
  simp only [List.mem_cons, List.not_mem_nil, or_false, not_not] at hc
  rcases hc with rfl | rfl | rfl
  · have hl : text.lookup '<' = some (.nested afterLess (.routine (.shift '<'))) := rfl
    rw [munch_of_lookup hl, Action.munch]
    refine Case.spells_digraph rfl rfl (Case.spells_digraph rfl rfl (Munch.spells_of_nil ?_ _))
    rw [Case.munch]
    rfl
  · have hl : text.lookup ':' =
        some (.nested [routine (.one '>') (.digraph .closeBracket)] (.fixed .punctuator)) := rfl
    rw [munch_of_lookup hl, Action.munch]
    refine Case.spells_digraph rfl rfl (Munch.spells_of_nil ?_ _)
    rw [Case.munch]
    rfl
  · have hl : text.lookup '%' = some (.nested (afterPercent .punctuator) operator) := rfl
    rw [munch_of_lookup hl, Action.munch]
    refine Case.spells_sharpDigraph _ (Case.spells_digraph rfl rfl (Munch.spells_of_nil ?_ _))
    rw [fixed, Case.munch, Case.munch]
    split <;> rfl

end Table

end Spells

/-! ## A text that is a single token -/

namespace Token

variable {σ : Type} {cs : List Char} {u : Token}

section

variable [Alphabet]

/-- A text that is a single token is that token as a whole. -/
theorem lexemes_singleton (h : lexemes cs = [u]) :
    ∃ m : Munch, m.Paired ∧ m.Spells cs ∧ m.length = cs.length ∧ u.kind = m.kind ∧
      u.value = String.ofList (m.shown cs) ∧ (m.pairs ≠ [] → m.kind = .punctuator) := by
  cases cs with
  | nil =>
    rw [lexemes, Glyph.inscribe, Table.divide_nil] at h
    cases h
  | cons c cs =>
    have hw : ∀ g ∈ Glyph.inscribe none .origin (c :: cs), g.Placed := fun _ => Glyph.placed_of_mem_inscribe
    have hcs := Glyph.spelling_inscribe none .origin (c :: cs)
    have hall := Glyph.length_inscribe none .origin (c :: cs)
    rw [lexemes] at h
    rw [Glyph.inscribe] at h hw hcs hall
    obtain ⟨rfl, hlen⟩ := Replay.eq_of_divide_singleton Table.sound_text hw h
    have hshown := Munch.spelling_glyphs (Table.first_paired Table.sound_text) hw (Nat.le_of_eq hlen)
    rw [first_inscribe, hall] at hlen
    rw [first_inscribe, hcs] at hshown
    obtain ⟨hpaired, hpairs⟩ := Table.munch_paired (c :: cs) c Table.sound_text
    refine ⟨Table.text.munch c (c :: cs), hpaired, Table.spells_text c cs, hlen, ?_, ?_,
      fun hp => Table.pairKinds_text _ (hpairs hp)⟩
    · rw [← first_inscribe]
      rfl
    · rw [← hshown, ← first_inscribe]
      rfl

/-- It shows the text, unless that is a digraph. -/
theorem value_of_lexemes (h : lexemes cs = [u]) :
    u.value = String.ofList cs ∨ ∃ d : Digraph, cs = d.spelling.toList ∧ u.value = String.ofList d.meaning := by
  obtain ⟨m, -, hspells, hlen, -, hvalue, -⟩ := lexemes_singleton h
  rw [hvalue, Munch.shown]
  split
  · rw [hlen, List.take_length]
    exact .inl rfl
  · next hp =>
    obtain ⟨d, hd, hm⟩ := hspells hp
    rw [hlen, List.take_length] at hd
    exact .inr ⟨d, hd, by rw [hm]⟩

/-- An identifier is no digraph. -/
theorem value_of_lexemes_identifier (h : lexemes cs = [u]) (hk : u.kind = .identifier) :
    u.value = String.ofList cs := by
  obtain ⟨m, -, -, hlen, hkind, hvalue, hpairs⟩ := lexemes_singleton h
  have hp : m.pairs = [] := Decidable.byContradiction fun hp => by
    rw [hkind, hpairs hp] at hk
    cases hk
  rw [hvalue, Munch.shown, if_pos hp, hlen, List.take_length]

/-- The kind of some tokens taken for one. -/
def soleKind : List Token → TokenKind
  | [t] => t.kind
  | _ => .unknown

theorem kindOf_lexemes (hr : '\r' ∉ cs) (s : Logged σ) :
    ∃ s', kindOf (String.ofList cs) s = .ok (soleKind (lexemes cs)) s' := by
  obtain ⟨s', h⟩ := relex_eq hr s
  have hread : attempt (relex (String.ofList cs)) s = .ok (.ok (lexemes cs)) s' := by rw [attempt, h]
  rw [kindOf, bind_of_ok hread]
  rcases lexemes cs with _ | ⟨t, _ | ⟨u, ts⟩⟩ <;> exact ⟨_, rfl⟩

/-! ## Joining -/

/-- The text of two tokens as one text, which has no carriage return in it. -/
theorem Lexed.append_value {l r : Token} (hl : l.Lexed) (hr : r.Lexed) :
    l.value ++ r.value = String.ofList (spelling (l.glyphs ++ r.glyphs)) ∧ '\r' ∉ spelling (l.glyphs ++ r.glyphs) := by
  have hall : ∀ g ∈ l.glyphs ++ r.glyphs, g.Unified := fun g hg =>
    (List.mem_append.1 hg).elim ((hl.made Glyph.closed_unified).2 g) ((hr.made Glyph.closed_unified).2 g)
  refine ⟨?_, Glyph.return_notMem hall⟩
  rw [value, value, ← String.ofList_append, Glyph.spelling_append]

/-- What was read, and the kind that two tokens of the same text are given when they are joined. -/
def Agrees (reserved : List String) (cs : List Char) (k : TokenKind) : Prop :=
  (∀ u, lexemes cs = [u] → k = (u.reserve reserved).kind ∧ (u.value = String.ofList cs ∨
    ∃ d : Digraph, cs = d.spelling.toList ∧ u.value = String.ofList d.meaning)) ∧
    ((∀ u, lexemes cs ≠ [u]) → k = .unknown)

theorem agrees_reserved {reserved : List String} (hw : String.ofList cs ∈ reserved) (h : lexemes cs = [u])
    (hk : u.kind = .identifier) : Agrees reserved cs .reserved := by
  refine ⟨fun v hv => ⟨?_, value_of_lexemes hv⟩, fun hne => absurd h (hne u)⟩
  obtain rfl : u = v := List.singleton_injective (h.symm.trans hv)
  rw [reserve, if_pos ⟨hk, by rwa [value_of_lexemes_identifier h hk]⟩]
  rfl

theorem agrees_soleKind {reserved : List String} (hw : String.ofList cs ∉ reserved) :
    Agrees reserved cs (soleKind (lexemes cs)) := by
  refine ⟨fun u hu => ⟨?_, value_of_lexemes hu⟩, fun hne => ?_⟩
  · have hkeep : ¬ (u.kind = .identifier ∧ u.value ∈ reserved) := fun h =>
      hw (value_of_lexemes_identifier hu h.1 ▸ h.2)
    rw [hu, reserve, if_neg hkeep]
    rfl
  · unfold soleKind
    split
    · next t ht => exact absurd ht (hne t)
    · rfl

/-- **Joined tokens are what their text is when it is read on its own.** Two tokens of lexers can be joined, and the
result shows the text of both. If that is a single token, the result is of its kind, or a reserved word if that is one;
it shows the same as that token, unless the text is a digraph. Otherwise the result is of no known kind. So a result of
a known kind is read again as it is, unless it is a digraph. All this holds if the reserved words are identifiers. -/
theorem paste_relex {l r : Token} (hl : l.Lexed) (hr : r.Lexed) {reserved : List String} (s : σ)
    (hwords : ∀ word ∈ reserved, ∃ u : Token, ((relex word).run s).1 = .ok [u] ∧ u.kind = .identifier) :
    ∃ us t, ((relex (l.value ++ r.value)).run s).1 = .ok us ∧ ((paste reserved l r).run s).1 = .ok t ∧
      t.value = l.value ++ r.value ∧
      (∀ u, us = [u] → t.kind = (u.reserve reserved).kind ∧ (t.value = (u.reserve reserved).value ∨
        ∃ d : Digraph, t.value = d.spelling ∧ (u.reserve reserved).value = String.ofList d.meaning)) ∧
      ((∀ u, us ≠ [u]) → t.kind = .unknown) ∧
      (t.kind ≠ .unknown → (∀ d : Digraph, t.value ≠ d.spelling) → ∃ u, ((relex t.value).run s).1 = .ok [u] ∧
        (u.reserve reserved).kind = t.kind ∧ (u.reserve reserved).value = t.value) := by
  obtain ⟨htext, hfree⟩ := hl.append_value hr
  obtain ⟨k, s₁, hpaste, hk⟩ := paste_gives hl.solid hr.solid reserved (⟨s, []⟩ : Logged σ)
  have hvalue : (⟨l.glyphs ++ r.glyphs, k, []⟩ : Token).value = l.value ++ r.value := htext.symm
  rw [htext] at hvalue
  rw [htext]
  generalize spelling (l.glyphs ++ r.glyphs) = cs at hfree hk hvalue
  obtain ⟨s₂, hrelex⟩ := relex_eq hfree (⟨s, []⟩ : Logged σ)
  have hrun := congrArg Prod.fst (ScanM.run_of_ok hrelex)
  obtain ⟨hone, hother⟩ : Agrees reserved cs k := by
    split at hk
    · next hw =>
      obtain ⟨u, hu, hid⟩ := hwords _ hw
      rw [hk]
      exact agrees_reserved hw (Except.ok.inj (hrun.symm.trans hu)) hid
    · next hw =>
      obtain ⟨s₃, hkind⟩ := kindOf_lexemes hfree (⟨s, []⟩ : Logged σ)
      cases hk.symm.trans hkind
      exact agrees_soleKind hw
  have hsame (u : Token) (hu : lexemes cs = [u]) :
      (⟨l.glyphs ++ r.glyphs, k, []⟩ : Token).value = (u.reserve reserved).value ∨
        ∃ d : Digraph, (⟨l.glyphs ++ r.glyphs, k, []⟩ : Token).value = d.spelling ∧
          (u.reserve reserved).value = String.ofList d.meaning := by
    rw [value_reserve, hvalue]
    refine (hone u hu).2.imp Eq.symm fun ⟨d, hd, hm⟩ => ⟨d, ?_, hm⟩
    rw [hd, String.ofList_toList]
  refine ⟨lexemes cs, _, hrun, congrArg Prod.fst (ScanM.run_of_ok hpaste), hvalue,
    fun u hu => ⟨(hone u hu).1, hsame u hu⟩, hother, fun hknown hd => ?_⟩
  obtain ⟨u, hu⟩ : ∃ u, lexemes cs = [u] := by
    by_contra hne
    exact hknown (hother fun u hu => hne ⟨u, hu⟩)
  refine ⟨u, ?_, (hone u hu).1.symm, ?_⟩
  · rw [hvalue, hrun, hu]
  · exact ((hsame u hu).resolve_right fun ⟨d, h, _⟩ => hd d h).symm

end

/-- Two parts of a reserved word. -/
theorem paste_relex_reserved :
    ∃ l r : Token, l.Lexed ∧ r.Lexed ∧ l.value = "in" ∧ r.value = "t" ∧
      (∀ word ∈ ["int"], ∃ u : Token, ((relex word).run ()).1 = .ok [u] ∧ u.kind = .identifier) ∧
      ∃ u t, ((relex "int").run ()).1 = .ok [u] ∧ ((paste ["int"] l r).run ()).1 = .ok t ∧ t.value = "int" ∧
        t.kind = .reserved ∧ (u.reserve ["int"]).kind = .reserved := by
  have hrun : ((Lexer.answers [.next, .next, .next]).run
      (.ofFile (.ofFeed [.bytes [105, 110, 32, 116]] none) false [])).1.toOption.map (·.flatMap Reply.tokens) = some [
        ⟨[.plain 'i' none .origin, .plain 'n' none (Location.origin.after ['i'])], .identifier, []⟩,
        ⟨[.plain ' ' none (Location.origin.after ['i', 'n'])], .delimiter, []⟩,
        ⟨[.plain 't' none (Location.origin.after ['i', 'n', ' '])], .identifier, []⟩] := by decide +kernel
  have hl := lexed_of_run hrun List.mem_cons_self
  have hr := lexed_of_run hrun (List.mem_of_getElem? (i := 2) rfl)
  have hint : ((relex "int").run ()).1 = .ok [⟨Glyph.inscribe none .origin "int".toList, .identifier, []⟩] := by
    decide +kernel
  have hwords : ∀ word ∈ ["int"], ∃ u : Token, ((relex word).run ()).1 = .ok [u] ∧ u.kind = .identifier := by
    simpa using ⟨_, hint, rfl⟩
  obtain ⟨us, t, hus, hpaste, hvalue, hone, -⟩ := paste_relex hl hr () hwords
  obtain rfl : us = _ := Except.ok.inj (hus.symm.trans hint)
  obtain ⟨hkind, -⟩ := hone _ rfl
  exact ⟨_, _, hl, hr, rfl, rfl, hwords, _, t, hint, hpaste, hvalue, hkind, rfl⟩

/-- **A digraph is joined from its two characters**, to a punctuator that shows both of them. Read on its own, it shows
what it stands for. -/
theorem paste_ne_relex :
    ∃ percent colon u t : Token, percent.Lexed ∧ colon.Lexed ∧ percent.value = "%" ∧ colon.value = ":" ∧
      ((relex (percent.value ++ colon.value)).run ()).1 = .ok [u] ∧ ((paste [] percent colon).run ()).1 = .ok t ∧
      (u.reserve []).kind = .punctuator ∧ (u.reserve []).value = "#" ∧ t.kind = .punctuator ∧ t.value = "%:" := by
  have hrun : ((Lexer.answers [.next, .next, .next]).run
      (.ofFile (.ofFeed [.bytes [37, 32, 58]] none) false [])).1.toOption.map (·.flatMap Reply.tokens) = some [
        ⟨[.plain '%' none .origin], .operator, []⟩,
        ⟨[.plain ' ' none (Location.origin.after ['%'])], .delimiter, []⟩,
        ⟨[.plain ':' none (Location.origin.after ['%', ' '])], .punctuator, []⟩] := by decide +kernel
  have hpercent := lexed_of_run hrun List.mem_cons_self
  have hcolon := lexed_of_run hrun (List.mem_of_getElem? (i := 2) rfl)
  have hrelex : ((relex "%:").run ()).1 =
      .ok [⟨[.merged '#' (Glyph.inscribe none .origin "%:".toList)], .punctuator, []⟩] := by decide +kernel
  have hpaste : ((paste [] ⟨[.plain '%' none .origin], .operator, []⟩
      ⟨[.plain ':' none (Location.origin.after ['%', ' '])], .punctuator, []⟩).run ()).1 =
        .ok ⟨[.plain '%' none .origin, .plain ':' none (Location.origin.after ['%', ' '])], .punctuator, []⟩ := by
    decide +kernel
  exact ⟨_, _, _, _, hpercent, hcolon, rfl, rfl, hrelex, hpaste, rfl, rfl, rfl, rfl⟩

end Token

end Pretoken
