import Pretoken.Proofs.Openings

/-!
# Literals

A string or a character literal is everything from its opening quote to the first quote that is not escaped, and no
more than the rest of the line.

* `Literal`: the two sorts of literals; `Literal.Opens`: how they begin.
* `Text.Closes`, `Text.LiteralExtent`: where a literal ends.
* **`Text.literalExtent_literalLength`**: the extent does not depend on the escape sequences in it.
* `Table.ruleAfter_literal`, `Table.eq_of_literal_kind`: literals in the tables.
* **`Replay.tokenOf_literal`**: literals begin and end where they should.
-/

namespace Pretoken

open Text
open Glyph (spelling)

/-! ## How literals begin -/

/-- The sorts of literals. -/
inductive Literal where
  /-- In double quotes. -/
  | string
  /-- In single quotes. -/
  | character
deriving DecidableEq, Repr

namespace Literal

/-- The quote at either end of the literal. -/
def quote : Literal → Char
  | string => '"'
  | character => '\''

/-- The kind of the token. -/
def kind : Literal → TokenKind
  | string => .string
  | character => .character

/-- What may stand before the opening quote. -/
def encodings : Literal → List (List Char)
  | string => [[], ['L'], ['U'], ['u'], ['u', '8']]
  | character => [[], ['L'], ['U'], ['u']]

/-- What completes the token after the opening quote. -/
def rule (l : Literal) : Rule := .routine (.literal l.quote l.kind)

/-- A text begins with the literal. -/
def Opens (l : Literal) (cs : List Char) : Prop := ∃ p ∈ l.encodings, p ++ [l.quote] <+: cs

theorem quote_ne (l : Literal) : l.quote ≠ '\n' ∧ l.quote ≠ '\\' := by
  cases l <;> decide

end Literal

/-! ## Where literals end -/

namespace Text

/-- How many backslashes stand directly before the character number `n`. -/
def backslashes (cs : List Char) (n : Nat) : Nat := ((cs.take n).reverse.takeWhile (· == '\\')).length

/-- The character number `n` is the quote `q`, and all backslashes before it are in pairs. -/
structure Closes (q : Char) (cs : List Char) (n : Nat) : Prop where
  quote : cs[n]? = some q
  paired : backslashes cs n % 2 = 0

instance (q : Char) (cs : List Char) (n : Nat) : Decidable (Closes q cs n) :=
  decidable_of_iff (cs[n]? = some q ∧ backslashes cs n % 2 = 0) ⟨fun h => ⟨h.1, h.2⟩, fun h => ⟨h.1, h.2⟩⟩

/-- After an opening quote, a literal has `n` characters of the text `cs`. -/
inductive LiteralExtent (q : Char) (cs : List Char) : Nat → Prop
  /-- It goes up to the first quote that closes it, if that is on the same line. -/
  | closed {n : Nat} (here : Closes q cs n) (first : ∀ m < n, ¬ Closes q cs m) (line : '\n' ∉ cs.take n) :
    LiteralExtent q cs (n + 1)
  /-- If no quote on the same line closes it, it is the rest of the line. -/
  | unclosed (none : ∀ n, Closes q cs n → '\n' ∈ cs.take n) :
    LiteralExtent q cs (cs.takeWhile (· != '\n')).length

section Extent

variable {q c : Char} {cs : List Char} {n : Nat}

/-- A literal has but one extent. -/
theorem LiteralExtent.unique {m : Nat} (h : LiteralExtent q cs n) (h' : LiteralExtent q cs m) : n = m := by
  cases h with
  | closed here first line =>
    cases h' with
    | closed here' first' _ =>
      exact congrArg (· + 1) (Nat.le_antisymm (Nat.le_of_not_lt fun hlt => first _ hlt here')
        (Nat.le_of_not_lt fun hlt => first' _ hlt here))
    | unclosed none => exact absurd (none _ here) line
  | unclosed none =>
    cases h' with
    | closed here _ line => exact absurd (none _ here) line
    | unclosed _ => rfl

theorem backslashes_succ (h : cs[n]? = some c) :
    backslashes cs (n + 1) = if c = '\\' then backslashes cs n + 1 else 0 := by
  rw [backslashes, List.take_add_one, h, Option.toList_some, List.reverse_append, List.reverse_singleton,
    List.singleton_append, List.takeWhile_cons]
  simp only [beq_iff_eq]
  split
  · rw [List.length_cons, backslashes]
  · rfl

theorem odd_succ (n : Nat) : decide ((n + 1) % 2 = 1) = !decide (n % 2 = 1) := by
  rw [Bool.eq_iff_iff, Bool.not_eq_true', decide_eq_true_eq, decide_eq_false_iff_not]
  omega

/-- The rest of a line, of which the first `n` characters are known. -/
theorem length_takeWhile_newline (hline : '\n' ∉ cs.take n) (hle : n ≤ cs.length)
    (hend : ∀ c, cs[n]? = some c → c = '\n') : (cs.takeWhile (· != '\n')).length = n := by
  have hall : ∀ c ∈ cs.take n, (c != '\n') = true := by
    intro c hc
    rw [bne_iff_ne]
    rintro rfl
    exact hline hc
  have hnil : (cs.drop n).takeWhile (· != '\n') = [] := by
    cases hc : cs[n]? with
    | none => rw [drop_of_none hc]; rfl
    | some c =>
      rw [drop_of_some hc, hend c hc]
      rfl
  calc (cs.takeWhile (· != '\n')).length
      = ((cs.take n ++ cs.drop n).takeWhile (· != '\n')).length := by rw [List.take_append_drop]
    _ = (cs.take n).length := by rw [List.takeWhile_append_of_pos hall, hnil, List.append_nil]
    _ = n := List.length_take_of_le hle

/-- What is left to read of a literal ends where it should, if nothing before has ended it. -/
theorem literalExtent_from (hq : q ≠ '\n' ∧ q ≠ '\\') (hle : n ≤ cs.length) (hline : '\n' ∉ cs.take n)
    (hopen : ∀ m < n, ¬ Closes q cs m) :
    LiteralExtent q cs (n + literalLength q (decide (backslashes cs n % 2 = 1)) (cs.drop n)) := by
  induction hk : cs.length - n generalizing n with
  | zero =>
    have hnone : cs[n]? = none := List.getElem?_eq_none (by omega)
    have hclosed (m : Nat) (h : Closes q cs m) : '\n' ∈ cs.take m := by
      obtain ⟨hm, -⟩ := List.getElem?_eq_some_iff.1 h.quote
      exact absurd h (hopen m (by omega))
    have hextent := LiteralExtent.unclosed hclosed
    rw [length_takeWhile_newline hline hle (by rw [hnone]; exact nofun)] at hextent
    rw [literalLength, reach_of_none hnone, Nat.add_zero]
    exact hextent
  | succ k ih =>
    obtain ⟨c, hc⟩ : ∃ c, cs[n]? = some c := ⟨_, List.getElem?_eq_getElem (by omega)⟩
    by_cases hnew : c = '\n'
    · -- the line ends here
      subst hnew
      have hclosed (m : Nat) (h : Closes q cs m) : '\n' ∈ cs.take m := by
        rcases Nat.lt_trichotomy m n with hlt | rfl | hgt
        · exact absurd h (hopen m hlt)
        · exact absurd (Option.some.inj (h.quote.symm.trans hc)) hq.1
        · exact List.mem_of_getElem? (i := n) (by rw [List.getElem?_take_of_lt hgt, hc])
      have hextent := LiteralExtent.unclosed hclosed
      rw [length_takeWhile_newline hline hle (by rw [hc]; rintro _ ⟨⟩; rfl)] at hextent
      rw [literalLength, reach_of_before hc (if_pos rfl), Nat.add_zero]
      exact hextent
    · by_cases hclose : Closes q cs n
      · obtain rfl : q = c := Option.some.inj (hclose.quote.symm.trans hc)
        have hpaired : decide (backslashes cs n % 2 = 1) = false := by simp [hclose.paired]
        rw [hpaired, literalLength, reach_of_after hc (by rw [if_neg hq.1, if_pos ⟨rfl, rfl⟩])]
        exact .closed hclose hopen hline
      · -- the literal goes on, and the next character may be escaped
        have hgo : ¬ (c = q ∧ decide (backslashes cs n % 2 = 1) = false) := by
          rintro ⟨rfl, hpaired⟩
          exact hclose ⟨hc, by simpa using hpaired⟩
        have hnext : decide (backslashes cs (n + 1) % 2 = 1) = (c == '\\' && !decide (backslashes cs n % 2 = 1)) := by
          rw [backslashes_succ hc]
          by_cases hb : c = '\\'
          · simp [hb, odd_succ]
          · simp [hb]
        rw [literalLength, reach_of_on hc (by rw [if_neg hnew, if_neg hgo]), ← hnext, Nat.add_comm _ 1, ← Nat.add_assoc]
        refine ih (by omega) ?_ ?_ (by omega)
        · rw [List.take_add_one, hc]
          simpa using ⟨hline, Ne.symm hnew⟩
        · intro m hm
          rcases Nat.lt_succ_iff_lt_or_eq.1 hm with hlt | rfl
          · exact hopen m hlt
          · exact hclose

/-- **A literal ends where it should.** The digits of escape sequences, which are read on their own, make no
difference. -/
theorem literalExtent_literalLength (hq : q ≠ '\n' ∧ q ≠ '\\') (cs : List Char) :
    LiteralExtent q cs (literalLength q false cs) := by
  have hextent := literalExtent_from hq (Nat.zero_le cs.length) List.not_mem_nil nofun
  rwa [Nat.zero_add] at hextent

end Extent

end Text

/-! ## Literals in tables -/

namespace Table

variable {table : Table}

theorem ruleAfter_literal (ht : table ∈ [text, directive]) (l : Literal) :
    ∀ p ∈ l.encodings, table.ruleAfter (p ++ [l.quote]) = some l.rule := by
  simp only [List.mem_cons, List.not_mem_nil, or_false] at ht
  rcases ht with rfl | rfl <;> cases l <;> decide +kernel

/-- Tokens of the kind of a literal begin with one. -/
theorem eq_of_literal_kind (ht : table ∈ contexts) (l : Literal) :
    ∀ o ∈ table.openings, l.kind ∈ o.rule.kinds → o.rule = l.rule ∧ ∃ p ∈ l.encodings, p ++ [l.quote] = o.text := by
  rcases mem_contexts.1 ht with rfl | rfl | rfl <;> cases l <;> decide +kernel

variable [Alphabet] {l : Literal} {c : Char} {cs : List Char}

theorem munch_literal (ht : table ∈ [text, directive]) {p : List Char} (hp : p ∈ l.encodings)
    (hfits : p ++ [l.quote] <+: c :: cs) : table.munch c (c :: cs) =
      ⟨l.kind, p.length + 1 + literalLength l.quote false ((c :: cs).drop (p.length + 1)), []⟩ := by
  have hmem : table ∈ contexts := List.mem_append_left [includeOperand] ht
  rw [munch_of_rule hmem (ruleAfter_literal ht l p hp) hfits, List.length_append, List.length_singleton]
  rfl

/-- A text of which the first token is a literal begins with one. -/
theorem opens_of_kind (ht : table ∈ contexts) (hk : (table.munch c (c :: cs)).kind = l.kind) : l.Opens (c :: cs) := by
  rcases exists_opening c cs ht with ⟨o, ho, hfits, heq⟩ | heq
  · rw [heq] at hk
    obtain ⟨-, p, hp, htext⟩ := eq_of_literal_kind ht l o ho (hk ▸ o.rule.kind_munch)
    exact ⟨p, hp, htext ▸ hfits⟩
  · rw [heq] at hk
    split at hk <;> cases l <;> cases hk

end Table

/-! ## Reading literals -/

namespace Replay

section

variable [Alphabet] {table : Table} {w : List Glyph}

/-- **Literals begin and end where they should.** In ordinary text and in a directive, what begins with a quote,
perhaps with an encoding before it, is read as one literal: what begins it, and all up to its extent. Nothing else is
read as a literal. -/
theorem tokenOf_literal (ht : table ∈ [Table.text, Table.directive]) (l : Literal) (hw : ∀ g ∈ w, g.Placed)
    (name : Option String) :
    (∀ p ∈ l.encodings, p ++ [l.quote] <+: spelling w →
      ∃ n, LiteralExtent l.quote ((spelling w).drop (p.length + 1)) n ∧
        tokenOf table w name = .ok (some ⟨w.take (p.length + 1 + n), l.kind, []⟩, w.drop (p.length + 1 + n))) ∧
    (¬ l.Opens (spelling w) → ∃ o rest, tokenOf table w name = .ok (o, rest) ∧ ∀ t ∈ o, t.kind ≠ l.kind) := by
  have hmem : table ∈ Table.contexts := List.mem_append_left [Table.includeOperand] ht
  have hs := Table.sound_of_mem hmem
  refine ⟨fun p hp hfits => ⟨_, literalExtent_literalLength l.quote_ne _, ?_⟩, fun hnone => ?_⟩
  · cases hcs : spelling w with
    | nil =>
      rw [hcs] at hfits
      exact absurd (List.prefix_nil.1 hfits) (by simp)
    | cons c cs =>
      rw [hcs] at hfits
      have hm := Table.munch_literal ht hp hfits
      rw [(tokenOf_munch hs hw name hcs).2, hm]
      rfl
  · refine tokenOf_kind_ne hs hw name fun c cs hcs hk => hnone ?_
    rw [hcs]
    exact Table.opens_of_kind hmem hk

end

/-- A string with an escaped quote in it, and an identifier that begins as an encoding does. -/
theorem tokenOf_literal_escaped :
    Table.text ∈ [Table.text, Table.directive] ∧
    (∀ text, ∀ g ∈ Glyph.inscribe none .origin text, g.Placed) ∧
    ['u', '8'] ∈ Literal.string.encodings ∧
    ['u', '8'] ++ [Literal.string.quote] <+: spelling (Glyph.inscribe none .origin "u8\"\\\"x\"y".toList) ∧
    tokenOf .text (Glyph.inscribe none .origin "u8\"\\\"x\"y".toList) none =
      .ok (some ⟨(Glyph.inscribe none .origin "u8\"\\\"x\"y".toList).take 7, .string, []⟩,
        (Glyph.inscribe none .origin "u8\"\\\"x\"y".toList).drop 7) ∧
    ¬ Literal.string.Opens (spelling (Glyph.inscribe none .origin "u8x\"".toList)) ∧
    ∃ o rest, tokenOf .text (Glyph.inscribe none .origin "u8x\"".toList) none = .ok (o, rest) ∧
      ∀ t ∈ o, t.kind ≠ .string := by
  have ht : Table.text ∈ [Table.text, Table.directive] := List.mem_cons_self
  have hplaced (text : List Char) : ∀ g ∈ Glyph.inscribe none .origin text, g.Placed :=
    fun _ => Glyph.placed_of_mem_inscribe
  have hp : ['u', '8'] ∈ Literal.string.encodings := by decide
  have hfits : ['u', '8'] ++ [Literal.string.quote] <+:
      spelling (Glyph.inscribe none .origin "u8\"\\\"x\"y".toList) := by decide
  have hnone : ¬ Literal.string.Opens (spelling (Glyph.inscribe none .origin "u8x\"".toList)) := by
    unfold Literal.Opens
    decide
  obtain ⟨n, hn, hread⟩ := (tokenOf_literal ht .string (hplaced _) none).1 _ hp hfits
  have hfour : LiteralExtent '"' ((spelling (Glyph.inscribe none .origin "u8\"\\\"x\"y".toList)).drop 3) (3 + 1) :=
    .closed (by decide) (by decide) (by decide)
  obtain rfl : n = 3 + 1 := hn.unique hfour
  exact ⟨ht, hplaced, hp, hfits, hread, hnone, (tokenOf_literal ht .string (hplaced _) none).2 hnone⟩

end Replay

end Pretoken
