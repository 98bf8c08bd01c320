import Pretoken.Proofs.Dividing
import Pretoken.Proofs.Shaping

/-!
# Directives and ordinary text

The rest of a directive is divided into the same tokens as ordinary text, as long as it has no white space that a
directive knows nothing of. Only line feeds and number signs are of another kind.

* `Table.lookup_directive`, `Table.lookup_includeOperand`: where the tables agree.
* `Text.recastKind`, `Token.recast`: the kind that a token has in a directive.
* `Table.munch_directive`: what a directive makes of a text, compared with ordinary text.
* `Table.divide_directive`: the same for all tokens of a text.
* **`Replay.tokensOf_recast`**: the contexts agree.
-/

namespace Pretoken

open Glyph (spelling)

/-! ## Where the tables agree -/

namespace Table

variable {c : Char}

/-- Apart from white space and number signs, a directive begins its tokens as ordinary text does. -/
theorem lookup_directive (h : c ∉ ['\n', ' ', '\t', '\x0c', '\x0b', '#', '%']) :
    directive.lookup c = text.lookup c := by
  simp only [List.mem_cons, List.not_mem_nil, or_false, not_or] at h
  obtain ⟨hn, hs, ht, hf, hv, hsharp, hpercent⟩ := h
  have htext : find textSpace c = none := by
    simp [find, textSpace, routine, fixed, CharSet.contains, hs, ht, hf, hv, Ne.symm hn]
  have hdirective : find directiveSpace c = none := by
    simp [find, directiveSpace, routine, fixed, CharSet.contains, hs, ht, Ne.symm hn]
  have hsharps (k : TokenKind) : find (sharps k) c = none := by
    simp [find, sharps, nested, CharSet.contains, Ne.symm hsharp, Ne.symm hpercent]
  rw [directive, text, lookup_compile (by decide) (by decide), lookup_compile (by decide) (by decide)]
  simp only [List.findSome?_cons, htext, hdirective, hsharps]

/-- An operand begins its tokens as the rest of a directive does, unless a header name may begin. -/
theorem lookup_includeOperand (hq : c ≠ '"') (hl : c ≠ '<') : includeOperand.lookup c = directive.lookup c := by
  have hnames : find headerNames c = none := by
    simp [find, headerNames, routine, CharSet.contains, Ne.symm hq, Ne.symm hl]
  rw [includeOperand, directive, lookup_compile (by decide) (by decide), lookup_compile (by decide) (by decide)]
  simp only [List.findSome?_cons, hnames]

theorem munch_includeOperand [Alphabet] (hq : c ≠ '"') (hl : c ≠ '<') (cs : List Char) :
    includeOperand.munch c cs = directive.munch c cs := by
  rw [munch, munch, lookup_includeOperand hq hl]

end Table

/-! ## Kinds in a directive -/

namespace Text

/-- The kind in a directive of what shows the characters `v` and is of the kind `k` in ordinary text. -/
def recastKind (v : List Char) (k : TokenKind) : TokenKind :=
  if v = ['\n'] then .directiveEnd
  else if v = ['#'] ∨ v = ['#', '#'] then .operator
  else k

variable {v : List Char} {k : TokenKind}

theorem recastKind_sharps (h : v = ['#'] ∨ v = ['#', '#']) : recastKind v k = .operator := by
  rcases h with rfl | rfl <;> rfl

theorem recastKind_of_head? (hn : v.head? ≠ some '\n') (hs : v.head? ≠ some '#') : recastKind v k = k := by
  unfold recastKind
  rw [if_neg (by rintro rfl; exact hn rfl), if_neg]
  rintro (rfl | rfl) <;> exact hs rfl

theorem runLength_congr {p q : Char → Bool} {cs : List Char} (h : ∀ c ∈ cs, p c = q c) :
    runLength p cs = runLength q cs := by
  induction cs with
  | nil => rfl
  | cons c cs ih =>
    rw [List.forall_mem_cons] at h
    simp only [runLength, reach, h.1] at ih ⊢
    cases q c with
    | false => rfl
    | true => exact congrArg (· + 1) (ih h.2)

end Text

/-- The token as it is in a directive: a line feed ends that, and a number sign is an operator. -/
def Token.recast (t : Token) : Token :=
  if t.value = "\n" then t.withKind .directiveEnd
  else if t.value = "#" ∨ t.value = "##" then t.withKind .operator
  else t

theorem Token.recast_eq (t : Token) : t.recast = t.withKind (Text.recastKind t.value.toList t.kind) := by
  have hn : "\n".toList = ['\n'] := rfl
  have hs : "#".toList = ['#'] := rfl
  have hss : "##".toList = ['#', '#'] := rfl
  obtain ⟨gs, k, cs⟩ := t
  unfold recast Text.recastKind
  simp only [← String.toList_inj, hn, hs, hss]
  split_ifs <;> rfl

/-! ## What a directive makes of a text -/

namespace Table

open Text

/-- What `m'` makes of a text in a directive is what `m` makes of it in ordinary text, recast. -/
structure Recasts (cs : List Char) (m m' : Munch) : Prop where
  eq : m' = { m with kind := recastKind (m.shown cs) m.kind }
  lineFeed : m.shown cs = ['\n'] → m.kind = .delimiter
  sharps : m.shown cs = ['#'] ∨ m.shown cs = ['#', '#'] → m.kind = .punctuator

variable {c : Char} {cs : List Char}

theorem sharpKinds_text : ∀ k ∈ text.gather Rule.sharpKinds, k = .punctuator := by decide

theorem sharpKinds_directive : ∀ k ∈ directive.gather Rule.sharpKinds, k = .operator := by decide

variable [Alphabet]

/-- A token that is the same in a directive as in ordinary text is neither a line feed nor a number sign. -/
theorem recasts_of_eq (hc : c ≠ '\n') (h : directive.munch c (c :: cs) = text.munch c (c :: cs)) :
    Recasts (c :: cs) (text.munch c (c :: cs)) (directive.munch c (c :: cs)) := by
  generalize hm : text.munch c (c :: cs) = m at h ⊢
  have hn : (m.shown (c :: cs)).head? ≠ some '\n' := by
    have hpaired : m.Paired := hm ▸ (munch_paired _ c sound_text).1
    rcases Munch.head?_shown hpaired (hm ▸ le_munch sound_text) c cs with ⟨-, hhead⟩ | ⟨d, -, hhead⟩
    · rw [hhead]
      exact fun he => hc (Option.some.inj he)
    · rw [hhead]
      cases d <;> decide
  have hs : (m.shown (c :: cs)).head? ≠ some '#' := by
    intro hsharp
    have hk := kind_of_sharp sound_text rfl sharpKinds_text hm hsharp
    rw [kind_of_sharp sound_directive rfl sharpKinds_directive h hsharp] at hk
    cases hk
  refine ⟨by rw [recastKind_of_head? hn hs, h], fun he => absurd (by rw [he]; rfl) hn, ?_⟩
  rintro (he | he) <;> exact absurd (by rw [he]; rfl) hs

theorem recasts_of_sharps {n : Nat} {ds : List Digraph} (ht : text.munch c (c :: cs) = ⟨.punctuator, n, ds⟩)
    (hd : directive.munch c (c :: cs) = ⟨.operator, n, ds⟩)
    (h : (⟨.punctuator, n, ds⟩ : Munch).shown (c :: cs) ∈ [['#'], ['#', '#']]) :
    Recasts (c :: cs) (text.munch c (c :: cs)) (directive.munch c (c :: cs)) := by
  simp only [List.mem_cons, List.not_mem_nil, or_false] at h
  rw [ht, hd]
  refine ⟨by rw [recastKind_sharps h], fun he => ?_, fun _ => rfl⟩
  rw [he] at h
  rcases h with h | h <;> cases h

theorem recasts_blanks (hf : '\x0c' ∉ cs) (hv : '\x0b' ∉ cs) (hn : c ≠ '\n')
    (ht : text.lookup c = some (.finish (.routine .blanks)))
    (hd : directive.lookup c = some (.finish (.routine .directiveBlanks))) :
    Recasts (c :: cs) (text.munch c (c :: cs)) (directive.munch c (c :: cs)) := by
  refine recasts_of_eq hn ?_
  have hrun : runLength isDirectiveBlank cs = runLength isBlank cs := runLength_congr fun x hx => by
    have hxf : (x == '\x0c') = false := beq_eq_false_iff_ne.2 fun he => hf (he ▸ hx)
    have hxv : (x == '\x0b') = false := beq_eq_false_iff_ne.2 fun he => hv (he ▸ hx)
    rw [isBlank, hxf, hxv, Bool.or_false, Bool.or_false, isDirectiveBlank]
  rw [munch_of_lookup ht, munch_of_lookup hd]
  simp only [Action.munch, Rule.munch, Routine.munch, List.drop_succ_cons, List.drop_zero, hrun]

theorem recasts_sharp (cs : List Char) :
    Recasts ('#' :: cs) (text.munch '#' ('#' :: cs)) (directive.munch '#' ('#' :: cs)) := by
  have ht : text.lookup '#' = some (.nested [fixed (.one '#') .punctuator] (.fixed .punctuator)) := rfl
  have hd : directive.lookup '#' = some (.nested [fixed (.one '#') .operator] (.fixed .operator)) := rfl
  have hmunch (k : TokenKind) : (Action.nested [fixed (.one '#') k] (.fixed k)).munch ('#' :: cs) 1 =
      if cs.head?.any (CharSet.one '#').contains then ⟨k, 2, []⟩ else ⟨k, 1, []⟩ := by
    simp only [Action.munch, Case.munch, Rule.munch, fixed]
    cases cs <;> rfl
  cases hnext : cs.head?.any (CharSet.one '#').contains with
  | false =>
    rw [hnext] at hmunch
    exact recasts_of_sharps ((munch_of_lookup ht _).trans (hmunch _)) ((munch_of_lookup hd _).trans (hmunch _))
      List.mem_cons_self
  | true =>
    rw [hnext] at hmunch
    refine recasts_of_sharps ((munch_of_lookup ht _).trans (hmunch _)) ((munch_of_lookup hd _).trans (hmunch _)) ?_
    obtain ⟨d, hhead, hd⟩ := (Option.any_eq_true _ _).1 hnext
    obtain ⟨ds, rfl⟩ := List.head?_eq_some_iff.1 hhead
    obtain rfl : '#' = d := by simpa [CharSet.contains] using hd
    exact List.mem_cons_of_mem _ List.mem_cons_self

theorem recasts_percent (cs : List Char) :
    Recasts ('%' :: cs) (text.munch '%' ('%' :: cs)) (directive.munch '%' ('%' :: cs)) := by
  have ht : text.lookup '%' = some (.nested (afterPercent .punctuator) operator) := rfl
  have hd : directive.lookup '%' = some (.nested (afterPercent .operator) operator) := rfl
  by_cases hnext : (('%' :: cs)[1]?.any (CharSet.one ':').contains) = true
  · have hmunch (k : TokenKind) : (Action.nested (afterPercent k) operator).munch ('%' :: cs) 1 =
        (Routine.sharpDigraph k).munch ('%' :: cs) 2 := by
      simp only [Action.munch, afterPercent, routine, Case.munch, if_pos hnext, Rule.munch]
    have hmunchText := (munch_of_lookup ht ('%' :: cs)).trans (hmunch _)
    have hmunchDirective := (munch_of_lookup hd ('%' :: cs)).trans (hmunch _)
    simp only [Routine.munch] at hmunchText hmunchDirective
    split at hmunchText
    · next h =>
      rw [if_pos h] at hmunchDirective
      exact recasts_of_sharps hmunchText hmunchDirective (List.mem_cons_of_mem _ List.mem_cons_self)
    · next h =>
      rw [if_neg h] at hmunchDirective
      exact recasts_of_sharps hmunchText hmunchDirective List.mem_cons_self
  · refine recasts_of_eq (by decide) ?_
    rw [munch_of_lookup ht, munch_of_lookup hd]
    simp only [Action.munch, afterPercent, routine, Case.munch, if_neg hnext]

/-- **A directive makes the same of a text as ordinary text does, recast**, unless there is white space in it that a
directive does not know. -/
theorem munch_directive (hf : '\x0c' ∉ c :: cs) (hv : '\x0b' ∉ c :: cs) :
    Recasts (c :: cs) (text.munch c (c :: cs)) (directive.munch c (c :: cs)) := by
  rw [List.mem_cons, not_or] at hf hv
  by_cases hc : c ∉ ['\n', ' ', '\t', '\x0c', '\x0b', '#', '%']
  · refine recasts_of_eq (by rintro rfl; exact hc List.mem_cons_self) ?_
    rw [munch, munch, lookup_directive hc]
  simp only [List.mem_cons, List.not_mem_nil, or_false, not_not] at hc
  rcases hc with rfl | rfl | rfl | rfl | rfl | rfl | rfl
  · rw [munch_of_lookup breaks_text.lineFeed, munch_of_lookup breaks_directive.lineFeed]
    exact ⟨rfl, fun _ => rfl, fun h => by rcases h with h | h <;> cases h⟩
  · exact recasts_blanks hf.2 hv.2 (by decide) rfl rfl
  · exact recasts_blanks hf.2 hv.2 (by decide) rfl rfl
  · exact absurd rfl hf.1
  · exact absurd rfl hv.1
  · exact recasts_sharp cs
  · exact recasts_percent cs

/-! ## Tokens in a directive -/

section Tokens

variable {g : Glyph} {w : List Glyph}

theorem recasts_first (hw : ∀ x ∈ g :: w, x.Placed) (hf : '\x0c' ∉ spelling (g :: w))
    (hv : '\x0b' ∉ spelling (g :: w)) :
    Recasts (spelling (g :: w)) (text.first g w) (directive.first g w) := by
  obtain ⟨c, hc⟩ := (hw g List.mem_cons_self).exists_value
  rw [first, first, hc, Glyph.spelling_cons hc]
  rw [Glyph.spelling_cons hc] at hf hv
  exact munch_directive hf hv

/-- In ordinary text a line feed is white space, and a number sign is a punctuator. -/
def Ordinary (t : Token) : Prop :=
  (t.value = "\n" → t.kind = .delimiter) ∧ (t.value = "#" ∨ t.value = "##" → t.kind = .punctuator)

theorem firstToken_directive (hw : ∀ x ∈ g :: w, x.Placed) (hlen : (text.first g w).length ≤ (g :: w).length)
    (h : Recasts (spelling (g :: w)) (text.first g w) (directive.first g w)) :
    directive.firstToken g w = (text.firstToken g w).recast ∧ Ordinary (text.firstToken g w) := by
  have hvalue : (text.firstToken g w).value.toList = (text.first g w).shown (spelling (g :: w)) := by
    rw [← Munch.spelling_glyphs (first_paired sound_text) hw hlen]
    exact String.toList_ofList
  refine ⟨?_, ?_, ?_⟩
  · rw [Token.recast_eq, hvalue, firstToken, h.eq]
    rfl
  · rw [← String.toList_inj, hvalue]
    exact h.lineFeed
  · rw [← String.toList_inj, ← String.toList_inj, hvalue]
    exact h.sharps

theorem divide_directive (hw : ∀ g ∈ w, g.Placed) (hf : '\x0c' ∉ spelling w) (hv : '\x0b' ∉ spelling w) :
    directive.divide w = (text.divide w).map Token.recast ∧ ∀ t ∈ text.divide w, Ordinary t := by
  induction w using divide_induct sound_text with
  | nil => exact ⟨by rw [divide_nil, divide_nil, List.map_nil], by rw [divide_nil]; exact nofun⟩
  | cons g w ih =>
    have hdrop {x : Char} (hx : x ∉ spelling (g :: w)) :
        x ∉ spelling ((g :: w).drop (text.first g w).length) :=
      fun hmem => hx (List.filterMap_subset _ (List.drop_subset _ _) hmem)
    have h := recasts_first hw hf hv
    obtain ⟨htoken, hordinary⟩ := firstToken_directive hw (Replay.length_first_le sound_text hw) h
    obtain ⟨htokens, hall⟩ := ih (fun x hx => hw x (List.mem_of_mem_drop hx)) (hdrop hf) (hdrop hv)
    have hlen : (directive.first g w).length = (text.first g w).length := by rw [h.eq]
    rw [divide_cons sound_directive, divide_cons sound_text, htoken, hlen, htokens]
    exact ⟨rfl, List.forall_mem_cons.2 ⟨hordinary, hall⟩⟩

end Tokens

end Table

/-! ## Contexts -/

namespace Replay

/-- **The contexts agree.** Without form feeds and vertical tabs, a directive is divided into the same tokens as
ordinary text, recast. An operand that begins with no quote and no `<` begins with the same token as the rest of a
directive, and leaves the same. -/
theorem tokensOf_recast [Alphabet] {w : List Glyph} (hw : ∀ g ∈ w, g.Placed) (name : Option String) :
    ((∀ g ∈ w, g.value? ≠ some '\x0c' ∧ g.value? ≠ some '\x0b') →
      ∃ ts, tokensOf .text w name = .ok ts ∧ tokensOf .directive w name = .ok (ts.map Token.recast) ∧
        ∀ t ∈ ts, (t.value = "\n" → t.kind = .delimiter) ∧ (t.value = "#" ∨ t.value = "##" → t.kind = .punctuator)) ∧
    ((∀ g ∈ w.head?, g.value? ≠ some '"' ∧ g.value? ≠ some '<') →
      ∃ o rest, tokenOf .includeOperand w name = .ok (o, rest) ∧ tokenOf .directive w name = .ok (o, rest)) := by
  refine ⟨fun h => ?_, fun h => ?_⟩
  · have hfree {x : Char} (hx : ∀ g ∈ w, g.value? ≠ some x) : x ∉ spelling w := fun hmem => by
      obtain ⟨g, hg, hv⟩ := List.mem_filterMap.1 hmem
      exact hx g hg hv
    obtain ⟨htokens, hall⟩ := Table.divide_directive hw (hfree fun g hg => (h g hg).1) (hfree fun g hg => (h g hg).2)
    exact ⟨_, tokensOf_eq Table.sound_text name hw, htokens ▸ tokensOf_eq Table.sound_directive name hw, hall⟩
  · cases w with
    | nil => exact ⟨none, [], rfl, rfl⟩
    | cons g w =>
      obtain ⟨c, hc⟩ := (hw g List.mem_cons_self).exists_value
      obtain ⟨hq, hl⟩ := h g rfl
      rw [hc, Ne, Option.some.injEq] at hq hl
      have hfirst : Table.includeOperand.first g w = Table.directive.first g w := by
        rw [Table.first, Table.first, hc]
        exact Table.munch_includeOperand hq hl _
      refine ⟨_, _, ?_, tokenOf_cons Table.sound_directive name hw⟩
      rw [tokenOf_cons Table.sound_includeOperand name hw, Table.firstToken, Table.firstToken, hfirst]

/-- Two number signs and a bracket that are written as digraphs, and a number sign on the next line. -/
theorem tokensOf_recast_digraphs :
    (∀ g ∈ Glyph.inscribe none .origin "%:%:<:\n#".toList, g.Placed) ∧
    (∀ g ∈ Glyph.inscribe none .origin "%:%:<:\n#".toList, g.value? ≠ some '\x0c' ∧ g.value? ≠ some '\x0b') ∧
    (∀ g ∈ (Glyph.inscribe none .origin "%:%:<:\n#".toList).head?, g.value? ≠ some '"' ∧ g.value? ≠ some '<') ∧
    ∃ ts, tokensOf .text (Glyph.inscribe none .origin "%:%:<:\n#".toList) none = .ok ts ∧
      ts.map (fun t => (t.value, t.kind)) =
        [("##", .punctuator), ("[", .punctuator), ("\n", .delimiter), ("#", .punctuator)] ∧
      tokensOf .directive (Glyph.inscribe none .origin "%:%:<:\n#".toList) none = .ok (ts.map Token.recast) ∧
      ∃ o rest, tokenOf .includeOperand (Glyph.inscribe none .origin "%:%:<:\n#".toList) none = .ok (o, rest) ∧
        tokenOf .directive (Glyph.inscribe none .origin "%:%:<:\n#".toList) none = .ok (o, rest) := by
  have hw : ∀ g ∈ Glyph.inscribe none .origin "%:%:<:\n#".toList, g.Placed := fun _ => Glyph.placed_of_mem_inscribe
  have hfree : ∀ g ∈ Glyph.inscribe none .origin "%:%:<:\n#".toList,
      g.value? ≠ some '\x0c' ∧ g.value? ≠ some '\x0b' := by decide
  have hhead : ∀ g ∈ (Glyph.inscribe none .origin "%:%:<:\n#".toList).head?,
      g.value? ≠ some '"' ∧ g.value? ≠ some '<' := by decide
  obtain ⟨htokens, hoperand⟩ := tokensOf_recast hw none
  obtain ⟨ts, htext, hdirective, -⟩ := htokens hfree
  have hread : (tokensOf .text (Glyph.inscribe none .origin "%:%:<:\n#".toList) none).toOption.map
      (·.map fun t => (t.value, t.kind)) =
        some [("##", .punctuator), ("[", .punctuator), ("\n", .delimiter), ("#", .punctuator)] := by decide +kernel
  rw [htext] at hread
  exact ⟨hw, hfree, hhead, ts, htext, Option.some.inj hread, hdirective, hoperand hhead⟩

end Replay

end Pretoken
