import Pretoken.Proofs.Openings

/-!
# Comments

A comment in slashes and stars goes up to the first star and slash after its opening, or to the end of the text; one
that two slashes begin goes up to the end of the line.

* `Comment`: the two sorts of comments, and how they begin.
* `Text.BlockExtent`: where a comment in slashes and stars ends.
* **`Text.blockExtent_commentLength`**: reading one character after the other finds the first closing.
* `Table.ruleAfter_comment`, `Table.eq_of_comment_kind`: comments in the tables.
* **`Replay.tokenOf_comment`**: comments begin and end where they should.
-/

namespace Pretoken

open Text
open Glyph (spelling)

/-! ## How comments begin -/

/-- The sorts of comments. -/
inductive Comment where
  /-- In slashes and stars. -/
  | block
  /-- Up to the end of the line. -/
  | line
deriving DecidableEq, Repr

namespace Comment

/-- How the comment begins. -/
def opening : Comment → List Char
  | block => ['/', '*']
  | line => ['/', '/']

/-- What completes the token after that. -/
def rule : Comment → Rule
  | block => .routine .blockComment
  | line => .routine .lineComment

/-- How many characters of the text `cs` the comment has, which begins there. -/
def length (cs : List Char) : Comment → Nat
  | block => 2 + commentLength false (cs.drop 2)
  | line => 2 + runLength (· != '\n') (cs.drop 2)

end Comment

/-! ## Where comments end -/

namespace Text

/-- The star and the slash that end a comment. -/
def closing : List Char := ['*', '/']

/-- After its opening, a comment in slashes and stars has `n` characters of the text `cs`. -/
inductive BlockExtent (cs : List Char) : Nat → Prop
  /-- It goes up to the first closing. -/
  | closed {n : Nat} (here : closing <+: cs.drop n) (first : ∀ m < n, ¬ closing <+: cs.drop m) : BlockExtent cs (n + 2)
  /-- If there is none, it is all of the text. -/
  | unclosed (none : ∀ n, ¬ closing <+: cs.drop n) : BlockExtent cs cs.length

section Extent

variable {c : Char} {cs : List Char} {n : Nat}

/-- A comment has but one extent. -/
theorem BlockExtent.unique {m : Nat} (h : BlockExtent cs n) (h' : BlockExtent cs m) : n = m := by
  cases h with
  | closed here first =>
    cases h' with
    | closed here' first' =>
      exact congrArg (· + 2) (Nat.le_antisymm (Nat.le_of_not_lt fun hlt => first _ hlt here')
        (Nat.le_of_not_lt fun hlt => first' _ hlt here))
    | unclosed none => exact absurd here (none _)
  | unclosed none =>
    cases h' with
    | closed here _ => exact absurd here (none _)
    | unclosed _ => rfl

/-- A character before a text lengthens the comment by one, if it does not close it. -/
theorem BlockExtent.cons (h : BlockExtent cs n) (hc : ¬ closing <+: c :: cs) : BlockExtent (c :: cs) (n + 1) := by
  cases h with
  | closed here first =>
    refine .closed (n := _ + 1) here fun m hm => ?_
    cases m with
    | zero => exact hc
    | succ m => exact first m (Nat.lt_of_succ_lt_succ hm)
  | unclosed none =>
    refine .unclosed fun n => ?_
    cases n with
    | zero => exact hc
    | succ n => exact none n

/-- What does not close a comment is one character of it, even if it is a star. -/
theorem commentLength_cons (hc : ¬ closing <+: c :: cs) :
    commentLength false (c :: cs) = commentLength false cs + 1 := by
  rw [commentLength, reach, if_neg (fun h => Bool.false_ne_true h.1)]
  refine congrArg (· + 1) ?_
  by_cases hstar : c = '*'
  · have hslash : cs[0]? ≠ some '/' := by
      intro h
      refine hc (hstar ▸ List.cons_prefix_cons.2 ⟨rfl, ?_⟩)
      rw [← List.drop_zero (l := cs), drop_of_some h]
      exact List.cons_prefix_cons.2 ⟨rfl, List.nil_prefix⟩
    rw [hstar]
    exact commentLength_true hslash
  · rw [beq_false_of_ne hstar]

/-- **The first closing ends a comment.** That a star may stand before another star, or at the end of the text, makes
no difference. -/
theorem blockExtent_commentLength (cs : List Char) : BlockExtent cs (commentLength false cs) := by
  induction cs with
  | nil => exact .unclosed fun n => by simp [closing]
  | cons c cs ih =>
    by_cases hc : closing <+: c :: cs
    · obtain ⟨ds, hds⟩ := hc
      cases hds
      exact .closed (n := 0) (List.prefix_append closing ds) nofun
    · rw [commentLength_cons hc]
      exact ih.cons hc

/-- A run of a class is all that comes before the first other character. -/
theorem runLength_eq (p : Char → Bool) (cs : List Char) : runLength p cs = (cs.takeWhile p).length := by
  induction cs with
  | nil => rfl
  | cons c cs ih =>
    rw [runLength, reach, List.takeWhile_cons]
    cases hp : p c
    · rfl
    · exact congrArg (· + 1) ih

/-- What two slashes begin is the rest of the line. -/
theorem length_line (h : Comment.line.opening <+: cs) :
    Comment.line.length cs = (cs.takeWhile (· != '\n')).length := by
  obtain ⟨ds, rfl⟩ := h
  rw [Comment.length, runLength_eq, Nat.add_comm]
  rfl

end Extent

end Text

namespace Glyph

variable {w : List Glyph}

theorem length_takeWhile_spelling (hw : ∀ g ∈ w, g.Placed) :
    ((spelling w).takeWhile (· != '\n')).length = (w.takeWhile (!·.is '\n')).length := by
  induction w with
  | nil => rfl
  | cons g w ih =>
    obtain ⟨c, hc⟩ := (hw g List.mem_cons_self).exists_value
    have hline : (!g.is '\n') = (c != '\n') := by
      rw [Glyph.is, hc]
      rfl
    rw [spelling_cons hc, List.takeWhile_cons, List.takeWhile_cons, hline]
    split
    · exact congrArg (· + 1) (ih fun g hg => hw g (List.mem_cons_of_mem _ hg))
    · rfl

/-- The first line of some glyphs, and what follows it. -/
theorem take_line (hw : ∀ g ∈ w, g.Placed) :
    w.take ((spelling w).takeWhile (· != '\n')).length = w.takeWhile (!·.is '\n') ∧
    w.drop ((spelling w).takeWhile (· != '\n')).length = w.dropWhile (!·.is '\n') := by
  have hrest : (w.takeWhile (!·.is '\n') ++ w.dropWhile (!·.is '\n')).drop (w.takeWhile (!·.is '\n')).length =
      w.dropWhile (!·.is '\n') := List.drop_left
  rw [List.takeWhile_append_dropWhile] at hrest
  rw [length_takeWhile_spelling hw]
  exact ⟨(List.prefix_iff_eq_take.1 (List.takeWhile_prefix _)).symm, hrest⟩

end Glyph

/-! ## Comments in tables -/

namespace Table

variable {table : Table}

theorem ruleAfter_comment (ht : table ∈ contexts) (k : Comment) : table.ruleAfter k.opening = some k.rule := by
  rcases mem_contexts.1 ht with rfl | rfl | rfl <;> cases k <;> decide +kernel

/-- Tokens that are comments begin as one. -/
theorem eq_of_comment_kind (ht : table ∈ contexts) :
    ∀ o ∈ table.openings, .comment ∈ o.rule.kinds → ∃ k : Comment, k.opening = o.text := by
  have hkind : ∀ o ∈ table.openings, .comment ∈ o.rule.kinds → o.text ∈ [Comment.block, .line].map Comment.opening := by
    rcases mem_contexts.1 ht with rfl | rfl | rfl <;> decide +kernel
  intro o ho hk
  obtain ⟨k, -, htext⟩ := List.mem_map.1 (hkind o ho hk)
  exact ⟨k, htext⟩

variable [Alphabet] {c : Char} {cs : List Char}

theorem munch_comment (ht : table ∈ contexts) (k : Comment) (hfits : k.opening <+: c :: cs) :
    table.munch c (c :: cs) = ⟨.comment, k.length (c :: cs), []⟩ := by
  rw [munch_of_rule ht (ruleAfter_comment ht k) hfits]
  cases k <;> rfl

/-- A text of which the first token is a comment begins as one. -/
theorem opening_of_kind (ht : table ∈ contexts) (hk : (table.munch c (c :: cs)).kind = .comment) :
    ∃ k : Comment, k.opening <+: c :: cs := by
  rcases exists_opening c cs ht with ⟨o, ho, hfits, heq⟩ | heq
  · rw [heq] at hk
    obtain ⟨k, htext⟩ := eq_of_comment_kind ht o ho (hk ▸ o.rule.kind_munch)
    exact ⟨k, htext ▸ hfits⟩
  · rw [heq] at hk
    split at hk <;> cases hk

end Table

/-! ## Reading comments -/

namespace Replay

section

variable [Alphabet] {table : Table} {w : List Glyph}

theorem tokenOf_opening (ht : table ∈ Table.contexts) (k : Comment) (hw : ∀ g ∈ w, g.Placed) (name : Option String)
    (hfits : k.opening <+: spelling w) : tokenOf table w name =
      .ok (some ⟨w.take (k.length (spelling w)), .comment, []⟩, w.drop (k.length (spelling w))) := by
  cases hcs : spelling w with
  | nil =>
    rw [hcs] at hfits
    cases k <;> cases List.prefix_nil.1 hfits
  | cons c cs =>
    rw [hcs] at hfits
    rw [(tokenOf_munch (Table.sound_of_mem ht) hw name hcs).2, Table.munch_comment ht k hfits]
    rfl

/-- **Comments begin and end where they should.** In every context, what begins with a slash and a star is read as one
comment, which goes up to the first star and slash after these two, or up to the end. What begins with two slashes is
read as one comment, up to the first glyph that shows a line feed. The rest stays to be read. Nothing else is read as a
comment. -/
theorem tokenOf_comment (ht : table ∈ Table.contexts) (hw : ∀ g ∈ w, g.Placed) (name : Option String) :
    (['/', '*'] <+: spelling w → ∃ n, BlockExtent ((spelling w).drop 2) n ∧
      tokenOf table w name = .ok (some ⟨w.take (2 + n), .comment, []⟩, w.drop (2 + n))) ∧
    (['/', '/'] <+: spelling w →
      tokenOf table w name = .ok (some ⟨w.takeWhile (!·.is '\n'), .comment, []⟩, w.dropWhile (!·.is '\n'))) ∧
    (¬ ['/', '*'] <+: spelling w → ¬ ['/', '/'] <+: spelling w →
      ∃ o rest, tokenOf table w name = .ok (o, rest) ∧ ∀ t ∈ o, t.kind ≠ .comment) := by
  refine ⟨fun hblock => ⟨_, blockExtent_commentLength _, tokenOf_opening ht .block hw name hblock⟩, fun hline => ?_,
    fun hblock hline => ?_⟩
  · have hread := tokenOf_opening ht .line hw name hline
    obtain ⟨htake, hdrop⟩ := Glyph.take_line hw
    rwa [length_line hline, htake, hdrop] at hread
  · refine tokenOf_kind_ne (Table.sound_of_mem ht) hw name fun c cs hcs hk => ?_
    obtain ⟨k, hfits⟩ := Table.opening_of_kind ht hk
    rw [← hcs] at hfits
    cases k with
    | block => exact hblock hfits
    | line => exact hline hfits

end

/-- A slash right after the opening closes nothing, and of two stars the second one does. -/
theorem tokenOf_comment_stars :
    Table.directive ∈ Table.contexts ∧
    (∀ text, ∀ g ∈ Glyph.inscribe none .origin text, g.Placed) ∧
    ['/', '*'] <+: spelling (Glyph.inscribe none .origin "/*/ **/*/".toList) ∧
    tokenOf .directive (Glyph.inscribe none .origin "/*/ **/*/".toList) none =
      .ok (some ⟨(Glyph.inscribe none .origin "/*/ **/*/".toList).take 7, .comment, []⟩,
        (Glyph.inscribe none .origin "/*/ **/*/".toList).drop 7) ∧
    ['/', '/'] <+: spelling (Glyph.inscribe none .origin "//*\n*/".toList) ∧
    tokenOf .directive (Glyph.inscribe none .origin "//*\n*/".toList) none =
      .ok (some ⟨(Glyph.inscribe none .origin "//*\n*/".toList).take 3, .comment, []⟩,
        (Glyph.inscribe none .origin "//*\n*/".toList).drop 3) ∧
    ¬ ['/', '*'] <+: spelling (Glyph.inscribe none .origin "*//".toList) ∧
    ¬ ['/', '/'] <+: spelling (Glyph.inscribe none .origin "*//".toList) ∧
    ∃ o rest, tokenOf .directive (Glyph.inscribe none .origin "*//".toList) none = .ok (o, rest) ∧
      ∀ t ∈ o, t.kind ≠ .comment := by
  have ht : Table.directive ∈ Table.contexts := by simp [Table.contexts]
  have hplaced (text : List Char) : ∀ g ∈ Glyph.inscribe none .origin text, g.Placed :=
    fun _ => Glyph.placed_of_mem_inscribe
  have hblock : ['/', '*'] <+: spelling (Glyph.inscribe none .origin "/*/ **/*/".toList) := by decide
  have hline : ['/', '/'] <+: spelling (Glyph.inscribe none .origin "//*\n*/".toList) := by decide
  have hstar : ¬ ['/', '*'] <+: spelling (Glyph.inscribe none .origin "*//".toList) := by decide
  have hslash : ¬ ['/', '/'] <+: spelling (Glyph.inscribe none .origin "*//".toList) := by decide
  obtain ⟨n, hn, hread⟩ := (tokenOf_comment ht (hplaced _) none).1 hblock
  have hfive : BlockExtent ((spelling (Glyph.inscribe none .origin "/*/ **/*/".toList)).drop 2) (3 + 2) :=
    .closed (by decide) (by decide)
  obtain rfl : n = 3 + 2 := hn.unique hfive
  exact ⟨ht, hplaced, hblock, hread, hline, (tokenOf_comment ht (hplaced _) none).2.1 hline, hstar, hslash,
    (tokenOf_comment ht (hplaced _) none).2.2 hstar hslash⟩

end Replay

end Pretoken
