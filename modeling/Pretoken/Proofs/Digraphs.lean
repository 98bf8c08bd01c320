import Pretoken.Proofs.Openings
import Pretoken.Proofs.Pasting

/-!
# Digraphs and what they stand for

A digraph is read as the punctuator that it stands for: the token is of the same kind and shows the same, and what
follows is left. The digraph of a number sign alone looks ahead, since it may be doubled.

* `Digraph.pairs`, `Digraph.opening`, `Digraph.rule`: how a digraph is read.
* `Digraph.spelling_eq`, `Digraph.map_primary_pairs`: scanners have the digraphs of the list.
* `Table.Equates`, `Table.exists_equates`: a table reads a digraph and what it stands for alike.
* `Table.munch_spelling`, `Table.munch_meaning`: what comes of either, whatever follows.
* **`Replay.tokenOf_digraph`**: digraphs mean what they stand for.
-/

namespace Pretoken

open Glyph (spelling)

/-! ## How a digraph is read -/

namespace Digraph

/-- The pairs that the digraph is written with. -/
def pairs : Digraph → List Digraph
  | doubleSharp => [doubleSharp, doubleSharp]
  | d => [d]

/-- The first pair of the digraph. -/
def opening : Digraph → List Char
  | openBracket => ['<', ':']
  | closeBracket => [':', '>']
  | openBrace => ['<', '%']
  | closeBrace => ['%', '>']
  | sharp | doubleSharp => ['%', ':']

/-- What completes a token after the first pair, if number signs are of the kind `k`. -/
def rule (k : TokenKind) : Digraph → Rule
  | sharp | doubleSharp => .routine (.sharpDigraph k)
  | d => .routine (.digraph d)

theorem spelling_eq (d : Digraph) : d.spelling = d.entry.1 := by
  cases d <;> rfl

/-- What scanners collapse the pairs of a digraph to is what it stands for. -/
theorem map_primary_pairs (d : Digraph) : d.pairs.map primary = d.meaning := by
  cases d <;> rfl

theorem pairs_ne_nil (d : Digraph) : d.pairs ≠ [] := by
  cases d <;> exact nofun

theorem exists_spelling (d : Digraph) : ∃ c cs, d.spelling.toList = c :: cs := by
  cases d <;> exact ⟨_, _, rfl⟩

theorem exists_meaning (d : Digraph) : ∃ c cs, d.meaning = c :: cs := by
  cases d <;> exact ⟨_, _, rfl⟩

theorem opening_prefix (d : Digraph) (r : List Char) : d.opening <+: d.spelling.toList ++ r := by
  have hd : d.opening = d.spelling.toList.take 2 := by cases d <;> rfl
  rw [hd]
  exact (List.take_prefix 2 d.spelling.toList).trans (List.prefix_append _ _)

variable [Alphabet]

/-- **A digraph takes its pairs**, and number signs are of the kind `k`. -/
theorem munch_rule {d : Digraph} {k : TokenKind} (hk : (d.rule k).kinds = [k]) {r : List Char}
    (hr : d = sharp → ¬ ['%', ':'] <+: r) :
    (d.rule k).munch (d.spelling.toList ++ r) d.opening.length = ⟨k, d.spelling.toList.length, d.pairs⟩ := by
  cases d with
  | sharp =>
    have hnext : ¬ (r[0]? = some '%' ∧ r[1]? = some ':') := by
      rintro ⟨h₀, h₁⟩
      refine hr rfl ⟨r.drop 2, ?_⟩
      rw [List.cons_append, List.cons_append, List.nil_append, ← drop_of_some h₁, ← drop_of_some h₀, List.drop_zero]
    exact if_neg hnext
  | doubleSharp => rfl
  | openBracket | closeBracket | openBrace | closeBrace =>
    obtain rfl : TokenKind.punctuator = k := List.singleton_injective hk
    rfl

end Digraph

/-! ## Digraphs in tables -/

namespace Table

/-- The table reads the digraph `d` and what it stands for as tokens of the kind `k`. What it stands for is complete
as it is, unless a second number sign follows. -/
def Equates (table : Table) (d : Digraph) (k : TokenKind) : Prop :=
  table.ruleAfter d.opening = some (d.rule k) ∧ (d.rule k).kinds = [k] ∧
    ∃ action ∈ table.follow d.meaning, ∀ o ∈ action.openings, o = ⟨[], .fixed k⟩ ∨ d = .sharp ∧ o.text = ['#']

instance (table : Table) (d : Digraph) (k : TokenKind) : Decidable (table.Equates d k) :=
  inferInstanceAs (Decidable (_ ∧ _ ∧ _))

variable {table : Table} {d : Digraph} {k : TokenKind} {r : List Char} {c : Char} {cs : List Char}

/-- Every table knows all digraphs, but where a header name may stand, `<` begins one. -/
theorem exists_equates (ht : table ∈ contexts) (d : Digraph)
    (hd : table = includeOperand → d ≠ .openBracket ∧ d ≠ .openBrace) : ∃ k, table.Equates d k := by
  rcases mem_contexts.1 ht with rfl | rfl | rfl
  · exact ⟨.punctuator, by cases d <;> decide +kernel⟩
  · exact ⟨if d.primary = '#' then .operator else .punctuator, by cases d <;> decide +kernel⟩
  · refine ⟨if d.primary = '#' then .operator else .punctuator, ?_⟩
    cases d with
    | openBracket => exact absurd rfl (hd rfl).1
    | openBrace => exact absurd rfl (hd rfl).2
    | closeBracket | closeBrace | sharp | doubleSharp => decide +kernel

variable [Alphabet]

theorem munch_spelling (ht : table ∈ contexts) (h : table.Equates d k) (hr : d = .sharp → ¬ ['%', ':'] <+: r)
    (hcs : d.spelling.toList ++ r = c :: cs) : table.munch c (c :: cs) = ⟨k, d.spelling.toList.length, d.pairs⟩ := by
  obtain ⟨hrule, hk, -⟩ := h
  have hfits := d.opening_prefix r
  rw [hcs] at hfits
  rw [munch_of_rule ht hrule hfits, ← hcs]
  exact Digraph.munch_rule hk hr

theorem munch_meaning (ht : table ∈ contexts) (h : table.Equates d k) (hr : d = .sharp → r.head? ≠ some '#')
    (hcs : d.meaning ++ r = c :: cs) : table.munch c (c :: cs) = ⟨k, d.meaning.length, []⟩ := by
  obtain ⟨-, -, action, hfollow, hall⟩ := h
  have hfits : d.meaning <+: c :: cs := hcs ▸ List.prefix_append _ _
  obtain ⟨o, ho, hnext, heq⟩ := action.exists_opening (c :: cs) d.meaning.length
  rw [munch_of_follow ht hfollow hfits, heq]
  rcases hall o ho with rfl | ⟨rfl, hsharp⟩
  · rfl
  · -- what follows is no second number sign
    rw [hsharp, ← hcs, List.drop_left] at hnext
    obtain ⟨ds, rfl⟩ := hnext
    exact absurd rfl (hr rfl)

end Table

/-! ## Reading digraphs -/

namespace Replay

section

variable [Alphabet] {table : Table} {w v r : List Glyph}

/-- The first token of the glyphs `w` and what follows them, if that is as many as they are. -/
theorem tokenOf_append (ht : table ∈ Table.contexts) (hw : ∀ g ∈ w ++ r, g.Placed) (name : Option String) {c : Char}
    {cs : List Char} (hcs : spelling (w ++ r) = c :: cs) {k : TokenKind} {ds : List Digraph}
    (hm : table.munch c (c :: cs) = ⟨k, w.length, ds⟩) : ∃ t, tokenOf table (w ++ r) name = .ok (some t, r) ∧
      t.kind = k ∧ t.value = String.ofList ((⟨k, w.length, ds⟩ : Munch).shown (c :: cs)) ∧
      t.raw = String.ofList (spelling (Glyph.leavesAll w)) := by
  have hs := Table.sound_of_mem ht
  obtain ⟨hlen, hread⟩ := tokenOf_munch hs hw name hcs
  have hpaired := (Table.munch_paired (c :: cs) c hs).1
  have hcovers := (Munch.covers hpaired hlen).leavesAll_eq
  have hshown := Munch.spelling_glyphs hpaired hw hlen
  rw [hm] at hread hcovers hshown
  rw [hcs] at hshown
  rw [List.drop_left] at hread
  rw [List.take_left] at hcovers
  refine ⟨_, hread, rfl, congrArg String.ofList hshown, congrArg (String.ofList ∘ spelling) ?_⟩
  rw [Token.leaves, hcovers, Token.leavesAll, List.append_nil]

/-- **Digraphs mean what they stand for.** In every context a digraph is read as a token of the same kind as what it
stands for, which shows the same; either leaves exactly what follows. Only a number sign must not be doubled by what
follows, and where a header name may stand, `<` begins one. A digraph that was written in characters is what its token
goes back to. -/
theorem tokenOf_digraph (ht : table ∈ Table.contexts) {d : Digraph} {text meaning : String}
    (hd : d.entry = (text, meaning)) (hname : table = .includeOperand → text ≠ "<:" ∧ text ≠ "<%")
    (hw : ∀ g ∈ w ++ r, g.Placed) (hv : ∀ g ∈ v ++ r, g.Placed) (htext : spelling w = text.toList)
    (hmeaning : spelling v = meaning.toList)
    (hr : text = "%:" → (spelling r).head? ≠ some '#' ∧ ¬ ['%', ':'] <+: spelling r) (name : Option String) :
    ∃ t u, tokenOf table (w ++ r) name = .ok (some t, r) ∧ tokenOf table (v ++ r) name = .ok (some u, r) ∧
      t.kind = u.kind ∧ t.value = u.value ∧ u.value = meaning ∧ ((∀ g ∈ w, g.leaves = [g]) → t.raw = text) := by
  obtain rfl : d.spelling = text := by rw [d.spelling_eq, hd]
  obtain rfl : String.ofList d.meaning = meaning := by rw [Digraph.meaning, hd, String.ofList_toList]
  rw [String.toList_ofList] at hmeaning
  have hname' : table = .includeOperand → d ≠ .openBracket ∧ d ≠ .openBrace := fun he =>
    ⟨fun h => (hname he).1 (by rw [h]; rfl), fun h => (hname he).2 (by rw [h]; rfl)⟩
  have hr' (h : d = .sharp) : (spelling r).head? ≠ some '#' ∧ ¬ ['%', ':'] <+: spelling r := hr (by rw [h]; rfl)
  obtain ⟨k, hk⟩ := Table.exists_equates ht d hname'
  obtain ⟨c, cs, hcs⟩ := d.exists_spelling
  obtain ⟨c', cs', hcs'⟩ := d.exists_meaning
  have hlen := Glyph.length_spelling fun g hg => hw g (List.mem_append_left r hg)
  have hlen' := Glyph.length_spelling fun g hg => hv g (List.mem_append_left r hg)
  have hfirst : spelling (w ++ r) = c :: (cs ++ spelling r) := by
    rw [Glyph.spelling_append, htext, hcs, List.cons_append]
  have hfirst' : spelling (v ++ r) = c' :: (cs' ++ spelling r) := by
    rw [Glyph.spelling_append, hmeaning, hcs', List.cons_append]
  have hmunch := Table.munch_spelling ht hk (r := spelling r) (fun he => (hr' he).2) (by rw [hcs, List.cons_append])
  have hmunch' := Table.munch_meaning ht hk (r := spelling r) (fun he => (hr' he).1) (by rw [hcs', List.cons_append])
  rw [← htext, hlen] at hmunch
  rw [← hmeaning, hlen'] at hmunch'
  obtain ⟨t, hread, hkind, hvalue, hraw⟩ := tokenOf_append ht hw name hfirst hmunch
  obtain ⟨u, hread', hkind', hvalue', -⟩ := tokenOf_append ht hv name hfirst' hmunch'
  have hshown : u.value = String.ofList d.meaning := by
    rw [hvalue', Munch.shown, if_pos rfl, ← hlen', hmeaning, hcs', ← List.cons_append, List.take_left]
  refine ⟨t, u, hread, hread', hkind.trans hkind'.symm, ?_, hshown, fun hplain => ?_⟩
  · rw [hshown, hvalue, Munch.shown, if_neg d.pairs_ne_nil, d.map_primary_pairs]
  · rw [hraw, Glyph.leavesAll_eq_flatMap, List.flatMap_congr hplain, List.flatMap_singleton', htext,
      String.ofList_toList]

end

/-- In ordinary text, a closing bracket before a colon. In a directive, a number sign before a percent sign that could
have begun another one. -/
theorem tokenOf_digraph_bracket_sharp :
    let glyphs := Glyph.inscribe none .origin
    (Table.text ∈ Table.contexts ∧ Table.directive ∈ Table.contexts) ∧ (∀ text, ∀ g ∈ glyphs text, g.Placed) ∧
    (∀ g ∈ glyphs [':', '>'], g.leaves = [g]) ∧ (∀ g ∈ glyphs ['%', ':'], g.leaves = [g]) ∧
    (spelling (glyphs ['%', 'x'])).head? ≠ some '#' ∧ ¬ ['%', ':'] <+: spelling (glyphs ['%', 'x']) ∧
    (∃ t u, tokenOf .text (glyphs [':', '>'] ++ glyphs [':']) none = .ok (some t, glyphs [':']) ∧
      tokenOf .text (glyphs [']'] ++ glyphs [':']) none = .ok (some u, glyphs [':']) ∧
      t.kind = u.kind ∧ t.value = "]" ∧ t.raw = ":>") ∧
    ∃ t u, tokenOf .directive (glyphs ['%', ':'] ++ glyphs ['%', 'x']) none = .ok (some t, glyphs ['%', 'x']) ∧
      tokenOf .directive (glyphs ['#'] ++ glyphs ['%', 'x']) none = .ok (some u, glyphs ['%', 'x']) ∧
      t.kind = u.kind ∧ t.value = "#" ∧ t.raw = "%:" := by
  intro glyphs
  have ht : Table.text ∈ Table.contexts ∧ Table.directive ∈ Table.contexts := by simp [Table.contexts]
  have hplaced (text : List Char) : ∀ g ∈ glyphs text, g.Placed := fun _ => Glyph.placed_of_mem_inscribe
  have happend (a b : List Char) : ∀ g ∈ glyphs a ++ glyphs b, g.Placed := fun g hg =>
    (List.mem_append.1 hg).elim (hplaced a g) (hplaced b g)
  have hbracket : ∀ g ∈ glyphs [':', '>'], g.leaves = [g] := by decide
  have hsharp : ∀ g ∈ glyphs ['%', ':'], g.leaves = [g] := by decide
  have hhead : (spelling (glyphs ['%', 'x'])).head? ≠ some '#' := by decide
  have hpair : ¬ ['%', ':'] <+: spelling (glyphs ['%', 'x']) := by decide
  have hne : ":>" ≠ "%:" := by decide
  refine ⟨ht, hplaced, hbracket, hsharp, hhead, hpair, ?_, ?_⟩
  · obtain ⟨t, u, hread, hread', hkind, hvalue, hshown, hraw⟩ := tokenOf_digraph ht.1 (d := .closeBracket) rfl
      (fun _ => by decide) (happend [':', '>'] [':']) (happend [']'] [':']) rfl rfl (absurd · hne) none
    exact ⟨t, u, hread, hread', hkind, hvalue.trans hshown, hraw hbracket⟩
  · obtain ⟨t, u, hread, hread', hkind, hvalue, hshown, hraw⟩ := tokenOf_digraph ht.2 (d := .sharp) rfl
      (fun _ => by decide) (happend ['%', ':'] ['%', 'x']) (happend ['#'] ['%', 'x']) rfl rfl
      (fun _ => ⟨hhead, hpair⟩) none
    exact ⟨t, u, hread, hread', hkind, hvalue.trans hshown, hraw hsharp⟩

end Replay

end Pretoken
