import Pretoken.Proofs.Openings

/-!
# Numbers

A number is a digit, perhaps with a dot before it, and all that may follow: characters of identifiers, dots, and signs
that stand right after the letter of an exponent.

* `Text.NumberTail`, `Text.Number`: the grammar.
* `Text.StartsNumber`: how numbers begin.
* `Text.longestPrefix_number`: how far a number goes.
* `Table.numberLeads`, `Table.ruleAfter_number`, `Table.opening_of_number`: numbers in the tables.
* **`Replay.tokenOf_number`**: numbers are exactly their grammar.
-/

namespace Pretoken

open Glyph (spelling)

namespace Text

/-! ## The grammar -/

/-- What may follow the character `before` in a number. -/
inductive NumberTail [Alphabet] : (before : Char) → List Char → Prop
  | nil {before : Char} : NumberTail before []
  | char {before c : Char} {cs : List Char} (here : c = '.' ∨ isIdentContinue c = true) (rest : NumberTail c cs) :
    NumberTail before (c :: cs)
  | sign {before c : Char} {cs : List Char} (exponent : before ∈ ['e', 'E', 'p', 'P']) (here : c ∈ ['+', '-'])
    (rest : NumberTail c cs) : NumberTail before (c :: cs)

/-- A number: perhaps a dot, a digit, and what may follow it. -/
inductive Number [Alphabet] : List Char → Prop
  | digit {d : Char} {cs : List Char} (here : isDigit d = true) (rest : NumberTail d cs) : Number (d :: cs)
  | dot {d : Char} {cs : List Char} (here : isDigit d = true) (rest : NumberTail d cs) : Number ('.' :: d :: cs)

/-- The text `v` begins a number: a digit, or a dot and a digit. -/
inductive NumberLead (d : Char) : (v : List Char) → Prop
  | digit (here : isDigit d = true) : NumberLead d [d]
  | dot (here : isDigit d = true) : NumberLead d ['.', d]

/-- A text begins with a digit, or with a dot and a digit. -/
def StartsNumber (cs : List Char) : Prop := ∃ d v, NumberLead d v ∧ v <+: cs

section Grammar

variable {b c d : Char} {v cs : List Char}

theorem isExponent_iff : isExponent b = true ↔ b ∈ ['e', 'E', 'p', 'P'] := by
  simp [isExponent, or_assoc]

theorem isDigit_dot : isDigit '.' = false := rfl

variable [Alphabet]

/-! ## How far a number goes -/

theorem numberTail_cons_iff : NumberTail b (c :: cs) ↔
    (isIdentContinue c || c == '.' || (isExponent b && (c == '+' || c == '-'))) = true ∧ NumberTail c cs := by
  simp only [Bool.or_eq_true, Bool.and_eq_true, beq_iff_eq, isExponent_iff]
  constructor
  · intro h
    cases h with
    | char here rest => exact ⟨.inl here.symm, rest⟩
    | sign exponent here rest => exact ⟨.inr ⟨exponent, by simpa using here⟩, rest⟩
  · rintro ⟨here | ⟨exponent, here⟩, rest⟩
    · exact .char here.symm rest
    · exact .sign exponent (by simpa using here) rest

theorem longestPrefix_numberTail (b : Char) (cs : List Char) :
    LongestPrefix (NumberTail b) cs (numberLength (isExponent b) cs) := by
  induction cs generalizing b with
  | nil => exact ⟨Nat.le_refl 0, .nil, fun m hm _ => hm⟩
  | cons c cs ih =>
    rw [numberLength, reach]
    by_cases hc : (isIdentContinue c || c == '.' || (isExponent b && (c == '+' || c == '-'))) = true
    · rw [if_pos hc]
      exact (ih c).cons fun v => by rw [numberTail_cons_iff, and_iff_right hc]
    · rw [if_neg hc]
      refine ⟨Nat.zero_le _, .nil, fun m _ h => ?_⟩
      cases m with
      | zero => exact Nat.le_refl 0
      | succ m => exact absurd (numberTail_cons_iff.1 h).1 hc

/-- **A number goes as far as the longest prefix that is one.** -/
theorem longestPrefix_number (h : NumberLead d v) (cs : List Char) :
    LongestPrefix Number (v ++ cs) (v.length + numberLength (isExponent d) cs) := by
  have htail := longestPrefix_numberTail d cs
  rw [Nat.add_comm]
  cases h with
  | digit here =>
    refine htail.cons fun v => ⟨fun h => ?_, .digit here⟩
    cases h with
    | digit _ rest => exact rest
    | dot here' rest =>
      rw [isDigit_dot] at here
      cases here
  | dot here =>
    have hdigit : LongestPrefix (fun v => Number ('.' :: v)) (d :: cs) (numberLength (isExponent d) cs + 1) := by
      refine htail.cons fun v => ⟨fun h => ?_, .dot here⟩
      cases h with
      | digit here' rest =>
        rw [isDigit_dot] at here'
        cases here'
      | dot _ rest => exact rest
    exact hdigit.cons fun v => Iff.rfl

theorem Number.starts (h : Number cs) : StartsNumber cs := by
  cases h with
  | @digit d cs here rest => exact ⟨d, [d], .digit here, List.prefix_append [d] cs⟩
  | @dot d cs here rest => exact ⟨d, ['.', d], .dot here, List.prefix_append ['.', d] cs⟩

end Grammar

end Text

/-! ## Numbers in tables -/

namespace Table

open Text

variable {table : Table} {c d : Char} {v cs : List Char}

/-- All texts that begin numbers. -/
def numberLeads : List (List Char) := digit.members.flatMap fun d => [[d], ['.', d]]

theorem mem_numberLeads : v ∈ numberLeads ↔ ∃ d, NumberLead d v := by
  simp only [numberLeads, List.mem_flatMap, CharSet.mem_members, List.mem_cons, List.not_mem_nil, or_false]
  constructor
  · rintro ⟨d, hd, rfl | rfl⟩
    · exact ⟨d, .digit hd⟩
    · exact ⟨d, .dot hd⟩
  · rintro ⟨d, hd | hd⟩
    · exact ⟨d, hd, .inl rfl⟩
    · exact ⟨d, hd, .inr rfl⟩

theorem ruleAfter_number (ht : table ∈ contexts) : ∀ v ∈ numberLeads, table.ruleAfter v = some (.routine .number) := by
  rcases mem_contexts.1 ht with rfl | rfl | rfl <;> decide +kernel

/-- Only numbers begin like numbers. -/
theorem opening_of_number (ht : table ∈ contexts) : ∀ o ∈ table.openings, .number ∈ o.rule.kinds →
    o.text ∈ numberLeads := by
  rcases mem_contexts.1 ht with rfl | rfl | rfl <;> decide +kernel

variable [Alphabet]

/-- **A number takes all that goes on with it.** -/
theorem munch_number (ht : table ∈ contexts) (h : NumberLead d v) {r : List Char} (hcs : v ++ r = c :: cs) :
    table.munch c (c :: cs) = ⟨.number, v.length + numberLength (isExponent d) r, []⟩ := by
  have hfits : v <+: c :: cs := hcs ▸ List.prefix_append v r
  rw [munch_of_rule ht (ruleAfter_number ht v (mem_numberLeads.2 ⟨d, h⟩)) hfits, ← hcs]
  cases h with
  | digit => rfl
  | dot => rfl

/-- A text of which the first token is a number begins with one. -/
theorem startsNumber_of_kind (ht : table ∈ contexts) (hk : (table.munch c (c :: cs)).kind = .number) :
    StartsNumber (c :: cs) := by
  rcases exists_opening c cs ht with ⟨o, ho, hfits, heq⟩ | heq
  · rw [heq] at hk
    obtain ⟨d, hlead⟩ := mem_numberLeads.1 (opening_of_number ht o ho (hk ▸ o.rule.kind_munch))
    exact ⟨d, o.text, hlead, hfits⟩
  · rw [heq] at hk
    split at hk <;> cases hk

theorem kind_of_startsNumber (ht : table ∈ contexts) (h : StartsNumber (c :: cs)) :
    (table.munch c (c :: cs)).kind = .number := by
  obtain ⟨d, v, hlead, r, hr⟩ := h
  rw [munch_number ht hlead hr]

/-- The numbers of a table are those of the grammar. -/
theorem reads_number (ht : table ∈ contexts) : table.Reads .number Number where
  nonempty := nofun
  munch_kind _ _ h := kind_of_startsNumber ht h.starts
  pairs c cs hk := by
    obtain ⟨d, v, hlead, r, hr⟩ := startsNumber_of_kind ht hk
    rw [munch_number ht hlead hr]
  longest c cs hk := by
    obtain ⟨d, v, hlead, r, hr⟩ := startsNumber_of_kind ht hk
    rw [munch_number ht hlead hr, ← hr]
    exact longestPrefix_number hlead r

end Table

/-! ## Reading numbers -/

namespace Replay

open Text

section

variable [Alphabet] {table : Table} {w : List Glyph}

/-- **Numbers are exactly their grammar.** In every context some glyphs are a single token, a number, if and only if
their text is one. What begins with a digit, or with a dot and a digit, is read as a number: the longest prefix that
is one, and all that follows is left. Nothing else is read as a number. -/
theorem tokenOf_number (ht : table ∈ Table.contexts) (hw : ∀ g ∈ w, g.Placed) (name : Option String) :
    ((∃ t, tokensOf table w name = .ok [t] ∧ t.kind = .number) ↔ Number (spelling w)) ∧
    (StartsNumber (spelling w) → ∃ n, LongestPrefix Number (spelling w) n ∧
      tokenOf table w name = .ok (some ⟨w.take n, .number, []⟩, w.drop n)) ∧
    (¬ StartsNumber (spelling w) → ∃ o rest, tokenOf table w name = .ok (o, rest) ∧ ∀ t ∈ o, t.kind ≠ .number) := by
  have hs := Table.sound_of_mem ht
  have hreads := Table.reads_number ht
  refine ⟨tokensOf_kind_iff hs hreads hw name, fun hstarts => ?_, fun hnone => ?_⟩
  · cases hcs : spelling w with
    | nil =>
      obtain ⟨d, v, hlead, hfits⟩ := hstarts
      rw [hcs, List.prefix_nil] at hfits
      subst hfits
      cases hlead
    | cons c cs =>
      rw [hcs] at hstarts
      rw [← hcs]
      exact tokenOf_longest hs hreads hw name hcs (Table.kind_of_startsNumber ht hstarts)
  · refine tokenOf_kind_ne hs hw name fun c cs hcs hk => hnone ?_
    rw [hcs]
    exact Table.startsNumber_of_kind ht hk

end

/-- A number with a dot and an exponent before a sign that stands after no exponent, and two dots before a digit. -/
theorem tokenOf_number_exponent :
    Table.includeOperand ∈ Table.contexts ∧ (∀ text, ∀ g ∈ Glyph.inscribe none .origin text, g.Placed) ∧
    Number (spelling (Glyph.inscribe none .origin ".5.e+x".toList)) ∧
    (∃ t, tokensOf .includeOperand (Glyph.inscribe none .origin ".5.e+x".toList) none = .ok [t] ∧ t.kind = .number) ∧
    StartsNumber (spelling (Glyph.inscribe none .origin ".5.e+x-1".toList)) ∧
    tokenOf .includeOperand (Glyph.inscribe none .origin ".5.e+x-1".toList) none =
      .ok (some ⟨(Glyph.inscribe none .origin ".5.e+x-1".toList).take 6, .number, []⟩,
        (Glyph.inscribe none .origin ".5.e+x-1".toList).drop 6) ∧
    ¬ StartsNumber (spelling (Glyph.inscribe none .origin "..5".toList)) ∧
    ∃ o rest, tokenOf .includeOperand (Glyph.inscribe none .origin "..5".toList) none = .ok (o, rest) ∧
      ∀ t ∈ o, t.kind ≠ .number := by
  have ht : Table.includeOperand ∈ Table.contexts := by simp [Table.contexts]
  have hplaced (text : List Char) : ∀ g ∈ Glyph.inscribe none .origin text, g.Placed :=
    fun _ => Glyph.placed_of_mem_inscribe
  have hnumber : Number (spelling (Glyph.inscribe none .origin ".5.e+x".toList)) := by
    rw [Glyph.spelling_inscribe]
    exact .dot rfl (.char (.inl rfl) (.char (.inr rfl) (.sign (by decide) (by decide) (.char (.inr rfl) .nil))))
  have hlead : NumberLead '5' ['.', '5'] := .dot rfl
  have hstarts : StartsNumber (spelling (Glyph.inscribe none .origin ".5.e+x-1".toList)) :=
    ⟨'5', ['.', '5'], hlead, by decide⟩
  have hnone : ¬ StartsNumber (spelling (Glyph.inscribe none .origin "..5".toList)) := by
    rintro ⟨d, v, here | here, hfits⟩
    · obtain ⟨rfl, -⟩ := List.cons_prefix_cons.1 hfits
      cases here
    · obtain ⟨-, hfits⟩ := List.cons_prefix_cons.1 hfits
      obtain ⟨rfl, -⟩ := List.cons_prefix_cons.1 hfits
      cases here
  obtain ⟨n, hn, hread⟩ := (tokenOf_number ht (hplaced _) none).2.1 hstarts
  obtain rfl : n = 6 := hn.unique (longestPrefix_number hlead ".e+x-1".toList)
  exact ⟨ht, hplaced, hnumber, (tokenOf_number ht (hplaced _) none).1.2 hnumber, hstarts, hread, hnone,
    (tokenOf_number ht (hplaced _) none).2.2 hnone⟩

end Replay

end Pretoken
