import Mathlib.Data.List.Induction
import Pretoken.Proofs.Munching

/-!
# The shape of a directive

The tokens of a directive are told apart by where they stand in the line and by how they begin.

* `Munch.head?_spelling`: a token shows first what it begins with, or what a digraph stands for.
* `LinePlace.Suits`: what a token at a place of a line is like.
* **`LinePlace.suits_of_munch`**, `LinePlace.Suits.stands_mark`: what is read there does, and so it stands in the line.
* `LinePlace.after`: the place after some tokens of a line.
* `Orderly`: each token stands at the place after those before it.
* `WellShaped`: what the tokens of a directive are like.
* **`Scanner.readDirective_wellShaped`**: such are the tokens of every directive.
-/

namespace Pretoken

open ScanM (Gives)
open Glyph (spelling)

/-! ## How a token begins -/

section

variable {w : List Glyph} {g : Glyph} {c : Char} {m : Munch}

/-- The kinds that a rule can give after it has collapsed a digraph of a number sign. -/
def Rule.sharpKinds : Rule → List TokenKind
  | routine (.digraph d) => if d.primary = '#' then [.punctuator] else []
  | routine (.sharpDigraph kind) => [kind]
  | _ => []

variable [Alphabet]

theorem Rule.kind_munch_of_sharp {rule : Rule} {cs : List Char} {n : Nat} {d : Digraph}
    (hd : d ∈ (rule.munch cs n).pairs) (hp : d.primary = '#') : (rule.munch cs n).kind ∈ rule.sharpKinds := by
  cases rule with
  | fixed kind => cases hd
  | routine r =>
    cases r with
    | universalName digits =>
      simp only [munch, Routine.munch] at hd
      split at hd <;> cases hd
    | ellipsis =>
      simp only [munch, Routine.munch] at hd
      split at hd <;> cases hd
    | digraph e =>
      obtain rfl : d = e := List.mem_singleton.1 hd
      rw [sharpKinds, if_pos hp]
      exact List.mem_cons_self
    | sharpDigraph kind =>
      simp only [munch, Routine.munch]
      split <;> exact List.mem_cons_self
    | _ => cases hd

namespace Table

variable {table : Table} {cs : List Char}

/-- A kind that is found for the character `x` alone is given to what begins with it. -/
theorem eq_of_kind_munch (hs : table.sound = true) {k : TokenKind} {x : Char} (hid : k ≠ .identifier)
    (hun : k ≠ .unknown)
    (hx : ∀ action, table.lookup c = some action → k ∈ action.gather Rule.kinds → c = x)
    (hk : (table.munch c cs).kind = k) : c = x := by
  unfold munch at hk
  split at hk
  · next action ha =>
    obtain ⟨rule, n, o, -, hf, -, heq⟩ := action.exists_rule cs 1 none (sound_of_lookup hs ha)
    rw [heq] at hk
    exact hx action ha (hf _ (hk ▸ rule.kind_munch))
  · split at hk
    · exact absurd hk.symm hid
    · exact absurd hk.symm hun

/-- What begins with a number sign is of the kind that the table gives to number signs, however they are written. -/
theorem kind_of_sharp (hs : table.sound = true) {k : TokenKind}
    (hl : table.lookup '#' = some (.nested [fixed (.one '#') k] (.fixed k)))
    (hk : ∀ k' ∈ table.gather Rule.sharpKinds, k' = k) (hm : table.munch c (c :: cs) = m)
    (h : (m.shown (c :: cs)).head? = some '#') : m.kind = k := by
  have hpaired : m.Paired := hm ▸ (munch_paired _ c hs).1
  rcases Munch.head?_shown hpaired (hm ▸ le_munch hs) c cs with ⟨-, hhead⟩ | ⟨d, hmem, hhead⟩
  · rw [hhead, Option.some.injEq] at h
    subst h
    rw [← hm, munch_of_lookup hl, Action.munch, fixed, Case.munch]
    split <;> rfl
  · rw [hhead, Option.some.injEq] at h
    obtain ⟨rule, n, o, -, hf, -, heq⟩ := exists_rule (c :: cs) c hs
    rw [← hm, heq] at hmem ⊢
    exact hk _ (hf Rule.sharpKinds (Rule.kind_munch_of_sharp hmem h))

end Table

end

/-! ## Tokens at a place of a line -/

/-- The first character that the token shows. -/
def Token.lead? (t : Token) : Option Char := t.value.toList.head?

namespace LinePlace

/-- What a token at a place of a line is like, whether it is the name of the directive or not. -/
structure Suits (place : LinePlace) (t : Token) : Prop where
  children : t.children = []
  filename : t.kind = .filename ↔ place = .operand ∧ t.lead? = some '"'
  standardHeader : t.kind = .standardHeader ↔ place = .operand ∧ t.lead? = some '<'
  sharp : t.lead? = some '#' → t.kind = .operator
  lineFeed : '\n' ∈ t.value.toList → t.kind = .comment ∨ t.kind = .directiveEnd
  ending : t.kind = .directiveEnd → t.value = "\n"

theorem sound (place : LinePlace) : place.table.sound = true := by
  cases place with
  | name | body => exact Table.sound_directive
  | operand => exact Table.sound_includeOperand

/-- The table of a line gives no token the kind of a name of a directive, and header names for operands only. -/
theorem kinds_table (place : LinePlace) : ∀ k ∈ .identifier :: .unknown :: place.table.gather Rule.kinds,
    k ≠ .directiveName ∧ (place ≠ .operand → k ≠ .filename ∧ k ≠ .standardHeader) := by
  cases place <;> decide

/-- In a directive a number sign is an operator, however it is written. -/
theorem sharpKinds_table (place : LinePlace) : ∀ k ∈ place.table.gather Rule.sharpKinds, k = .operator := by
  cases place <;> decide

section Munch

variable [Alphabet] {place : LinePlace} {w : List Glyph} {g : Glyph} {c : Char} {m : Munch}
  (hw : ∀ x ∈ g :: w, x.Placed) (hg : g.value? = some c) (hm : place.table.munch c (spelling (g :: w)) = m)
  (hlen : m.length ≤ (g :: w).length)
include hw hg hm hlen

theorem spelling_glyphs : spelling (m.glyphs (g :: w)) = m.shown (c :: spelling w) := by
  rw [Munch.spelling_glyphs (hm ▸ (Table.munch_paired _ c place.sound).1) hw hlen, Glyph.spelling_cons hg]

theorem head?_spelling : (m.pairs = [] ∧ (spelling (m.glyphs (g :: w))).head? = some c) ∨
    ∃ d ∈ m.pairs, (spelling (m.glyphs (g :: w))).head? = some d.primary := by
  rw [spelling_glyphs hw hg hm hlen]
  exact Munch.head?_shown (hm ▸ (Table.munch_paired _ c place.sound).1) (hm ▸ Table.le_munch place.sound) c _

/-- A header name is told by its first character. -/
theorem headerName_iff {x closing : Char} {k : TokenKind} (hp : place = .operand)
    (hl : Table.includeOperand.lookup x = some (.finish (.routine (.headerName closing k))))
    (hx : ∀ action, Table.includeOperand.lookup c = some action → k ∈ action.gather Rule.kinds → c = x)
    (hid : k ≠ .identifier) (hun : k ≠ .unknown) (hd : ∀ d : Digraph, d.primary ≠ x) :
    m.kind = k ↔ (spelling (m.glyphs (g :: w))).head? = some x := by
  subst hp
  have hlead : c = x → m.kind = k ∧ m.pairs = [] := by
    rintro rfl
    rw [← hm, table, Table.munch_of_lookup hl]
    exact ⟨rfl, rfl⟩
  have hback (hk : m.kind = k) : c = x :=
    Table.eq_of_kind_munch Table.sound_includeOperand hid hun hx (hm ▸ hk)
  rcases head?_spelling hw hg hm hlen with ⟨-, hhead⟩ | ⟨d, hmem, hhead⟩
  · rw [hhead, Option.some.injEq]
    exact ⟨hback, fun h => (hlead h).1⟩
  · rw [hhead, Option.some.injEq]
    constructor
    · intro hk
      rw [(hlead (hback hk)).2] at hmem
      cases hmem
    · exact fun h => absurd h (hd d)

/-- What begins with a number sign is an operator. -/
theorem operator_of_sharp (h : (spelling (m.glyphs (g :: w))).head? = some '#') : m.kind = .operator := by
  rw [spelling_glyphs hw hg hm hlen] at h
  rw [Glyph.spelling_cons hg] at hm
  exact Table.kind_of_sharp place.sound (by cases place <;> rfl) place.sharpKinds_table hm h

omit hw hg hlen in
theorem munch_lineFeed (hc : c = '\n') : m = ⟨.directiveEnd, 1, []⟩ := by
  subst hc
  rw [← hm, Table.munch_of_lookup place.breaks.lineFeed]
  rfl

/-- A line feed ends the line, or it is part of a comment. -/
theorem kind_of_lineFeed (h : '\n' ∈ spelling (m.glyphs (g :: w))) :
    m.kind = .comment ∨ m.kind = .directiveEnd := by
  by_cases hc : c = '\n'
  · rw [munch_lineFeed hm hc]
    exact .inr rfl
  · refine .inl (Decidable.byContradiction fun hk => ?_)
    have hlead : '\n' ∉ (spelling (g :: w)).take 1 := by
      rw [Glyph.spelling_cons hg]
      simpa using Ne.symm hc
    have hfree := Table.newline_notMem place.sound hlead (hm ▸ hk)
    rw [hm, ← Glyph.spelling_take hw] at hfree
    unfold Munch.glyphs at h
    split at h
    · exact hfree h
    · next hp =>
      -- a digraph stands for no line feed
      have hpaired : m.Paired := hm ▸ (Table.munch_paired _ c place.sound).1
      rw [Munch.spelling_pairUp ((hpaired.resolve_left hp).1 ▸ hlen), List.mem_map] at h
      obtain ⟨d, -, hd⟩ := h
      cases d <;> exact absurd hd (by decide)

/-- **What a scanner reads at a place of a line suits the place.** -/
theorem suits_of_munch : place.Suits ⟨m.glyphs (g :: w), m.kind, []⟩ := by
  have hkinds := place.kinds_table m.kind (hm ▸ Table.kind_munch _ c place.sound)
  refine ⟨rfl, ?_, ?_, ?_, ?_, ?_⟩
  all_goals simp only [Token.lead?, Token.value, String.toList_ofList]
  · by_cases hp : place = .operand
    · rw [headerName_iff hw hg hm hlen hp (x := '"') rfl
        (fun action => Table.eq_of_lookup (by decide) (by decide) (by decide)) (by decide) (by decide)
        fun d => by cases d <;> decide]
      simp [hp]
    · simp [hp, (hkinds.2 hp).1]
  · by_cases hp : place = .operand
    · rw [headerName_iff hw hg hm hlen hp (x := '<') rfl
        (fun action => Table.eq_of_lookup (by decide) (by decide) (by decide)) (by decide) (by decide)
        fun d => by cases d <;> decide]
      simp [hp]
    · simp [hp, (hkinds.2 hp).2]
  · exact operator_of_sharp hw hg hm hlen
  · exact kind_of_lineFeed hw hg hm hlen
  · intro hk
    have hc : c = '\n' := Table.eq_of_kind_munch (k := .directiveEnd) place.sound (by decide) (by decide)
      (fun action => eq_of_directiveEnd) (hm ▸ hk)
    have hone : spelling [g] = ['\n'] := by
      rw [Glyph.spelling_cons hg, hc]
      rfl
    rw [munch_lineFeed hm hc]
    exact congrArg String.ofList hone

end Munch

variable {place : LinePlace} {t : Token} {reserved : List String}

/-- A token that suits its place still does so when its kind is that of another name. -/
theorem Suits.withKind (h : place.Suits t) (ht : t.kind.isName = true) {k : TokenKind} (hk : k.isName = true) :
    place.Suits (t.withKind k) where
  children := h.children
  filename := iff_of_false (TokenKind.ne_of_isName hk rfl) fun hq =>
    TokenKind.ne_of_isName ht rfl (h.filename.2 hq)
  standardHeader := iff_of_false (TokenKind.ne_of_isName hk rfl) fun hq =>
    TokenKind.ne_of_isName ht rfl (h.standardHeader.2 hq)
  sharp hq := absurd (h.sharp hq) (TokenKind.ne_of_isName ht rfl)
  lineFeed hq := (h.lineFeed hq).elim (fun he => absurd he (TokenKind.ne_of_isName ht rfl)) fun he =>
    absurd he (TokenKind.ne_of_isName ht rfl)
  ending he := absurd he (TokenKind.ne_of_isName hk rfl)

theorem Suits.reserve (h : place.Suits t) : place.Suits (t.reserve reserved) := by
  unfold Token.reserve
  split
  · next hr => exact h.withKind (by rw [hr.1]; rfl) rfl
  · exact h

/-- A token that suits its place still does so as it stands in the line. -/
theorem Suits.mark (h : place.Suits t) (hn : place = .name → isDirectiveName t.value = true → t.kind.isName = true) :
    place.Suits (place.mark t) := by
  unfold LinePlace.mark
  split
  · next hm =>
    simp only [names, Bool.and_eq_true, beq_iff_eq] at hm
    exact h.withKind (hn hm.1.1.1 hm.2) rfl
  · exact h

/-- What a token of a line is like at its place. It is the name of the directive if it is the first that is no white
space and spells such a name. -/
structure Stands (place : LinePlace) (t : Token) : Prop extends place.Suits t where
  directiveName : t.kind = .directiveName ↔
    place = .name ∧ t.kind.isSpace = false ∧ isDirectiveName t.value = true

/-- A token that suits its place stands there once it is marked. -/
theorem Suits.stands_mark (h : place.Suits t) (hk : t.kind ≠ .directiveName)
    (hn : place = .name → isDirectiveName t.value = true → t.kind.isName = true) : place.Stands (place.mark t) := by
  refine ⟨h.mark hn, ?_⟩
  unfold LinePlace.mark
  split
  · next hm =>
    simp only [names, Bool.and_eq_true, beq_iff_eq] at hm
    exact iff_of_true rfl ⟨hm.1.1.1, rfl, hm.2⟩
  · next hm =>
    refine iff_of_false hk ?_
    rintro ⟨rfl, hspace, hname⟩
    -- what else is no white space is the end of the line
    have hend : t.kind = .directiveEnd := by
      simpa [names, hspace, hname] using hm
    rw [h.ending hend] at hname
    exact absurd hname (by decide)

/-! ## Places of a line -/

/-- The place after a token that does not end the line. -/
def step (place : LinePlace) (t : Token) : LinePlace :=
  if place ≠ body ∧ t.kind.isSpace then place
  else if place = name ∧ t.value = "include" then operand
  else body

/-- The place after some tokens of a line. -/
def after (ts : List Token) : LinePlace := ts.foldl step name

theorem after_concat (ts : List Token) (t : Token) : after (ts ++ [t]) = (after ts).step t := by
  rw [after, List.foldl_append]
  rfl

theorem step_mark (place : LinePlace) (t : Token) : place.step (place.mark t) = place.step t := by
  have hvalue : (place.mark t).value = t.value := by rw [Token.value, Token.value, glyphs_mark]
  have hspace : (place.mark t).kind.isSpace = t.kind.isSpace := by
    unfold mark
    split
    · next h =>
      simp only [names, Bool.and_eq_true, Bool.not_eq_true'] at h
      rw [h.1.1.2]
      rfl
    · rfl
  rw [step, step, hvalue, hspace]

theorem next_eq (place : LinePlace) (t : Token) :
    place.next t = if t.kind = .directiveEnd then .done () else .again (place.step t) := by
  unfold next step
  split_ifs <;> rfl

theorem step_of_isSpace {place : LinePlace} {t : Token} (h : t.kind.isSpace = true) : place.step t = place := by
  cases place <;> simp [step, h]

/-- White space does not change the place. -/
theorem foldl_step {ts : List Token} (h : ∀ t ∈ ts, t.kind.isSpace = true) (place : LinePlace) :
    ts.foldl step place = place := by
  induction ts with
  | nil => rfl
  | cons t ts ih =>
    rw [List.forall_mem_cons] at h
    rw [List.foldl_cons, step_of_isSpace h.1]
    exact ih h.2

theorem step_eq_name {place : LinePlace} {t : Token} :
    place.step t = name ↔ place = name ∧ t.kind.isSpace = true := by
  cases ht : t.kind.isSpace with
  | true => simp [step_of_isSpace ht]
  | false =>
    simp only [step, ht]
    split_ifs <;> simp_all

theorem step_eq_operand {place : LinePlace} {t : Token} : place.step t = operand ↔
    place = operand ∧ t.kind.isSpace = true ∨ place = name ∧ t.kind.isSpace = false ∧ t.value = "include" := by
  cases ht : t.kind.isSpace with
  | true => simp [step_of_isSpace ht]
  | false =>
    simp only [step, ht]
    split_ifs <;> simp_all

/-- Before the name of a directive there is nothing but white space. -/
theorem after_eq_name {ts : List Token} : after ts = name ↔ ∀ t ∈ ts, t.kind.isSpace = true := by
  induction ts using List.reverseRecOn with
  | nil => simp [after]
  | append_singleton ts t ih => rw [after_concat, step_eq_name, ih, List.forall_mem_append, List.forall_mem_singleton]

/-- Before the operand of a directive there is `include`, with nothing but white space around it. -/
theorem after_eq_operand {ts : List Token} : after ts = operand ↔
    ∃ blanks t gap, ts = blanks ++ t :: gap ∧ after blanks = name ∧ t.kind.isSpace = false ∧
      t.value = "include" ∧ ∀ u ∈ gap, u.kind.isSpace = true := by
  constructor
  · intro h
    induction ts using List.reverseRecOn with
    | nil => cases h
    | append_singleton ts u ih =>
      rw [after_concat, step_eq_operand] at h
      rcases h with ⟨h, hu⟩ | ⟨h, hu, hv⟩
      · obtain ⟨blanks, t, gap, rfl, hb, ht, hv, hgap⟩ := ih h
        refine ⟨blanks, t, gap ++ [u], by simp, hb, ht, hv, ?_⟩
        exact List.forall_mem_append.2 ⟨hgap, List.forall_mem_singleton.2 hu⟩
      · exact ⟨ts, u, [], rfl, h, hu, hv, nofun⟩
  · rintro ⟨blanks, t, gap, rfl, hb, ht, hv, hgap⟩
    have hop : after (blanks ++ [t]) = operand := by
      rw [after_concat, step_eq_operand]
      exact .inr ⟨hb, ht, hv⟩
    rw [List.append_cons, after, List.foldl_append, foldl_step hgap]
    exact hop

end LinePlace

/-! ## Lines -/

/-- Each of the tokens stands at the place after those before it. -/
def Orderly (cs : List Token) : Prop :=
  ∀ before t rest, cs = before ++ t :: rest → (LinePlace.after before).Stands t

theorem orderly_nil : Orderly [] := by
  rintro before t rest h
  simp at h

theorem Orderly.concat {cs : List Token} {t : Token} (h : Orderly cs) (ht : (LinePlace.after cs).Stands t) :
    Orderly (cs ++ [t]) := by
  intro before u rest heq
  rcases List.eq_nil_or_concat rest with rfl | ⟨rest, v, rfl⟩
  · obtain ⟨rfl, hu⟩ := List.append_inj' heq rfl
    obtain rfl := List.singleton_inj.1 hu
    exact ht
  · rw [List.concat_eq_append, ← List.cons_append, ← List.append_assoc] at heq
    exact h before u rest (List.append_inj' heq rfl).1

/-- Some tokens are followed by the operand of an `include` directive: after its name there has been nothing but white
space. -/
def FollowsInclude (before : List Token) : Prop :=
  ∃ blanks name gap, before = blanks ++ name :: gap ∧ name.kind = .directiveName ∧ name.value = "include" ∧
    ∀ t ∈ gap, t.kind.isSpace = true

/-- What the tokens of a directive are like. -/
structure WellShaped (cs : List Token) : Prop where
  /-- The end of the line comes last. -/
  ending : ∀ t ∈ cs.dropLast, t.kind ≠ .directiveEnd
  /-- The first token that is no white space is the name of the directive if it spells one, and no other token is. -/
  directiveName : ∀ before t rest, cs = before ++ t :: rest → (t.kind = .directiveName ↔
    (∀ u ∈ before, u.kind.isSpace = true) ∧ t.kind.isSpace = false ∧
      t.value ∈ ["include", "define", "undef", "if", "ifdef", "ifndef", "elif", "else", "endif", "line", "error",
        "pragma"])
  /-- The operand of an `include` directive is the name of a file if it begins with a quote, and no other token is. -/
  filename : ∀ before t rest, cs = before ++ t :: rest →
    (t.kind = .filename ↔ FollowsInclude before ∧ t.lead? = some '"')
  /-- It is a header of the language if it begins with `<`, and no other token is. -/
  standardHeader : ∀ before t rest, cs = before ++ t :: rest →
    (t.kind = .standardHeader ↔ FollowsInclude before ∧ t.lead? = some '<')
  /-- Number signs are operators. -/
  sharp : ∀ t ∈ cs, t.value = "#" ∨ t.value = "##" → t.kind = .operator
  /-- Line feeds are in comments or end the line. -/
  lineFeed : ∀ t ∈ cs, '\n' ∈ t.value.toList → t.kind = .comment ∨ t.kind = .directiveEnd
  /-- The end of the line is a line feed. -/
  endValue : ∀ t ∈ cs, t.kind = .directiveEnd → t.value = "\n"
  /-- No token has others in it. -/
  children : ∀ t ∈ cs, t.children = []

namespace Orderly

variable {cs : List Token}

theorem exists_stands (h : Orderly cs) {t : Token} (ht : t ∈ cs) : ∃ place : LinePlace, place.Stands t := by
  obtain ⟨before, rest, rfl⟩ := List.append_of_mem ht
  exact ⟨_, h before t rest rfl⟩

/-- Among orderly tokens the place of an operand is that after `include`. -/
theorem followsInclude_iff (h : Orderly cs) {before rest : List Token} (hcs : cs = before ++ rest) :
    LinePlace.after before = .operand ↔ FollowsInclude before := by
  rw [LinePlace.after_eq_operand]
  refine exists_congr fun blanks => exists_congr fun name => exists_congr fun gap => ?_
  refine and_congr_right fun hbefore => ?_
  have hname := (h blanks name (gap ++ rest) (by rw [hcs, hbefore]; simp)).directiveName
  constructor
  · rintro ⟨hb, hspace, hv, hgap⟩
    exact ⟨hname.2 ⟨hb, hspace, by rw [hv]; decide⟩, hv, hgap⟩
  · rintro ⟨hk, hv, hgap⟩
    exact ⟨(hname.1 hk).1, (hname.1 hk).2.1, hv, hgap⟩

theorem wellShaped (h : Orderly cs) (hend : ∀ t ∈ cs.dropLast, t.kind ≠ .directiveEnd) : WellShaped cs where
  ending := hend
  directiveName before t rest hcs := by
    rw [(h before t rest hcs).directiveName, LinePlace.after_eq_name, isDirectiveName, List.contains_iff_mem]
    rfl
  filename before t rest hcs := by
    rw [(h before t rest hcs).filename, h.followsInclude_iff hcs]
  standardHeader before t rest hcs := by
    rw [(h before t rest hcs).standardHeader, h.followsInclude_iff hcs]
  sharp t ht hv := by
    obtain ⟨place, hplace⟩ := h.exists_stands ht
    refine hplace.sharp ?_
    rcases hv with hv | hv <;> (rw [Token.lead?, hv]; rfl)
  lineFeed t ht := by
    obtain ⟨place, hplace⟩ := h.exists_stands ht
    exact hplace.lineFeed
  endValue t ht := by
    obtain ⟨place, hplace⟩ := h.exists_stands ht
    exact hplace.ending
  children t ht := by
    obtain ⟨place, hplace⟩ := h.exists_stands ht
    exact hplace.children

end Orderly

/-! ## Replays -/

namespace Replay

variable [Alphabet]

/-- A scanner reads a token that stands at its place in the line, unless there is nothing to come. -/
theorem readToken_stands (reserved : List String) (place : LinePlace) {w : List Glyph} (hw : ∀ g ∈ w, g.Placed) :
    Gives (Ready w) (Scanner.readToken place.table) fun o s => ∃ w', (∀ g ∈ w', g.Placed) ∧ Ready w' s ∧
      match o with
      | none => w' = []
      | some t => place.Stands (place.mark (t.reserve reserved)) := by
  intro s hs
  cases w with
  | nil =>
    obtain ⟨o, s', hs', hq⟩ := readToken_gives place.fits hw s hs
    cases o with
    | none => exact ⟨none, s', hs', [], nofun, hq.2, rfl⟩
    | some t =>
      obtain ⟨-, -, p, rest, hne, hnil, -⟩ := hq
      exact absurd (List.append_eq_nil_iff.1 hnil.symm).1 hne
  | cons g w =>
    obtain ⟨c, hc⟩ := (hw g List.mem_cons_self).exists_value
    obtain ⟨o, s', hs', rfl, hlen, hready⟩ := readToken_munch place.sound hw hc rfl s hs
    refine ⟨_, s', hs', _, fun x hx => hw x (List.mem_of_mem_drop hx), hready, ?_⟩
    have hkind := (place.kinds_table _ (Table.kind_munch (spelling (g :: w)) c place.sound)).1
    refine (LinePlace.suits_of_munch hw hc rfl hlen).reserve.stands_mark ?_ ?_
    · unfold Token.reserve
      split
      · nofun
      · exact hkind
    · rintro rfl hname
      rw [Token.isName_reserve, readToken_directiveName hw hs hs' (by rwa [Token.value_reserve] at hname)]
      rfl

/-- A line that has not come to its end, before glyphs that have a place. -/
def Underway (place : LinePlace) (l : DirectiveLine Replay) : Prop :=
  Orderly l.children ∧ (∀ t ∈ l.children, t.kind ≠ .directiveEnd) ∧ place = LinePlace.after l.children ∧
    ∃ w, (∀ g ∈ w, g.Placed) ∧ Ready w l.scanner

/-- A line of which no more is read: it has come to its end, or there are no more glyphs. -/
def Complete (l : DirectiveLine Replay) : Prop :=
  WellShaped l.children ∧ ((∀ t ∈ l.children, t.kind ≠ .directiveEnd) → l.scanner.source.coming = [])

theorem lineTurn_orderly (reserved : List String) (place : LinePlace) :
    Gives (Underway place) (DirectiveLine.lineTurn reserved place) (Turn.Post Underway fun _ => Complete) := by
  rintro s ⟨hcs, hopen, hplace, w, hw, hready⟩
  obtain ⟨o, u, hu, w', hw', hready', hq⟩ := readToken_stands reserved place hw ⟨s.state.scanner, s.log⟩ hready
  cases o with
  | none =>
    refine ⟨_, _, DirectiveLine.lineTurn_none hu, ?_, fun _ => ?_⟩
    · exact hcs.wellShaped fun t ht => hopen t (List.dropLast_subset _ ht)
    · exact hready'.2.trans hq
  | some t =>
    refine ⟨_, _, DirectiveLine.lineTurn_some hu, ?_⟩
    have hchildren : DirectiveLine.children ⟨u.state, place.mark (t.reserve reserved) :: s.state.newestFirst⟩ =
        s.state.children ++ [place.mark (t.reserve reserved)] := List.reverse_cons
    have hcs' : Orderly (s.state.children ++ [place.mark (t.reserve reserved)]) :=
      hcs.concat (by rw [← hplace]; exact hq)
    have hmark : (place.mark (t.reserve reserved)).kind = .directiveEnd ↔ (t.reserve reserved).kind = .directiveEnd :=
      LinePlace.kind_mark_eq_directiveEnd
    rw [LinePlace.next_eq]
    split
    · next hk =>
      refine ⟨?_, fun hnone => ?_⟩
      · rw [hchildren]
        refine hcs'.wellShaped ?_
        rwa [List.dropLast_concat]
      · rw [hchildren] at hnone
        exact absurd (hmark.2 hk) (hnone _ (List.mem_append_right _ List.mem_cons_self))
    · next hk =>
      refine ⟨?_, ?_, ?_, w', hw', hready'⟩
      · rwa [hchildren]
      · rw [hchildren]
        exact List.forall_mem_append.2 ⟨hopen, List.forall_mem_singleton.2 fun he => hk (hmark.1 he)⟩
      · rw [hchildren, LinePlace.after_concat, ← hplace, LinePlace.step_mark]

theorem readFrom_complete (reserved : List String) :
    Gives (Underway .name) (DirectiveLine.readFrom reserved .name) fun _ => Complete :=
  ScanM.loop_gives (lineTurn_orderly reserved) .name

end Replay

/-- **The tokens of a directive are well shaped**, whatever the glyphs from which they are read and whatever words are
reserved. If none of them ends the line, there are no more glyphs. By `Glyph.placed_iff` a glyph has a place if it is no
end and can be made at all. -/
theorem Scanner.readDirective_wellShaped [Alphabet] {gs : List Glyph} (h : ∀ g ∈ gs, g.Placed) (name : Option String)
    (reserved : List String) :
    ∃ cs, ((Scanner.readDirective reserved).run (.ofSource (Replay.ofGlyphs gs name))).1 = .ok cs ∧ WellShaped cs ∧
      ((∀ t ∈ cs, t.kind ≠ .directiveEnd) →
        ((Scanner.readDirective reserved).run (.ofSource (Replay.ofGlyphs gs name))).2.1.source.coming = []) := by
  have hgives : Gives (fun s : Scanner Replay => Replay.Ready gs s) (Scanner.readDirective reserved) fun cs s =>
      WellShaped cs ∧ ((∀ t ∈ cs, t.kind ≠ .directiveEnd) → s.source.coming = []) := by
    intro s hs
    obtain ⟨_, l, hl, hq⟩ := Replay.readFrom_complete reserved ⟨.ofScanner s.state, s.log⟩
      ⟨orderly_nil, nofun, rfl, gs, h, hs⟩
    exact ⟨_, _, Scanner.readDirective_ok hl, hq⟩
  exact ScanM.run_of_gives hgives ⟨rfl, rfl⟩

/-- The name of a file after a comment, and two number signs that are written as digraphs. There is a splice in the
name of the directive, and one more letter after the line. -/
theorem Scanner.readDirective_wellShaped_include :
    (∀ g ∈ (Glyph.joinLines [] (Glyph.inscribe none .origin "inc\\\nlude/*\n*/\"a\"%:%:\nx".toList)).1, g.Placed) ∧
    ∃ cs, ((Scanner.readDirective ["include"]).run (.ofSource (Replay.ofGlyphs (Glyph.joinLines []
        (Glyph.inscribe none .origin "inc\\\nlude/*\n*/\"a\"%:%:\nx".toList)).1 none))).1 = .ok cs ∧
      cs.map Token.kind = [.directiveName, .comment, .filename, .operator, .directiveEnd] ∧ WellShaped cs := by
  have h : ∀ g ∈ (Glyph.joinLines []
      (Glyph.inscribe none .origin "inc\\\nlude/*\n*/\"a\"%:%:\nx".toList)).1, g.Placed :=
    Glyph.placed_of_mem_joinLines [] fun _ => Glyph.placed_of_mem_inscribe
  obtain ⟨cs, hrun, hshape, -⟩ := readDirective_wellShaped h none ["include"]
  have hkinds : ((Scanner.readDirective ["include"]).run (.ofSource (Replay.ofGlyphs (Glyph.joinLines []
      (Glyph.inscribe none .origin "inc\\\nlude/*\n*/\"a\"%:%:\nx".toList)).1 none))).1.toOption.map
        (·.map Token.kind) =
      some [.directiveName, .comment, .filename, .operator, .directiveEnd] := by decide +kernel
  rw [hrun] at hkinds
  exact ⟨h, cs, hrun, Option.some.inj hkinds, hshape⟩

end Pretoken
