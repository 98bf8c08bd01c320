import Pretoken.Proofs.Dividing

/-!
# How tokens begin

What a table makes of a text is decided by how it begins. A given text can be followed through the table, and the
table can be written out as a list of all the texts that it leads to. So what holds of all of them, which can be
looked through one by one, holds of all tokens.

* `Action.follow`, `Table.ruleAfter`: where a text leads to.
* `Table.munch_of_follow`, `Table.munch_of_rule`: what comes of all that begins with that text.
* `Opening`, `Action.openings`, `Table.openings`: a table written out.
* **`Table.exists_opening`**: every token begins with one of the openings of its table, unless the table knows nothing
  of its first character.
* `Text.LongestPrefix`: how many characters are the longest prefix with a property.
* `Table.Reads`: the tokens of a kind are the texts with a property.
* **`Replay.tokenOf_munch`**, `Replay.tokenOf_kind_ne`, `Replay.tokensOf_kind_iff`: reading one token, and a text that
  is one token.
-/

namespace Pretoken

open Text
open Glyph (spelling)

/-! ## Following a text -/

/-- The rule of an action that completes a token. -/
def Action.rule? : Action → Option Rule
  | .finish rule => some rule
  | .nested _ _ => none

/-- The action that the characters of a text lead to. -/
def Action.follow : Action → List Char → Option Action
  | action, [] => some action
  | .finish _, _ :: _ => none
  | .nested cases _, c :: cs => (find cases c).bind fun action => action.follow cs

namespace Table

/-- The action that the characters of a text lead to. The cases are looked through here, not the index. -/
def follow (table : Table) : List Char → Option Action
  | [] => none
  | c :: cs =>
    if c.toNat < 128 then (table.groups.findSome? (find · c)).bind fun action => action.follow cs else none

/-- The rule that completes a token after a text, if there is but one. -/
def ruleAfter (table : Table) (v : List Char) : Option Rule := (table.follow v).bind Action.rule?

end Table

theorem find_cons (chars : CharSet) (action : Action) (cases : List Case) (c : Char) :
    find (⟨chars, action⟩ :: cases) c = if chars.contains c then some action else find cases c := by
  unfold find
  rw [List.find?_cons]
  cases chars.contains c <;> rfl

section Follow

variable [Alphabet] {table : Table} {action action' : Action} {rule : Rule} {v cs : List Char} {c : Char} {n : Nat}

theorem Case.munch_of_find {cases : List Case} {other : Rule} (h : cs[n]? = some c) :
    Case.munch cs n other cases = match find cases c with
      | some action => action.munch cs (n + 1)
      | none => other.munch cs n := by
  induction cases with
  | nil => rw [Case.munch]; rfl
  | cons case cases ih =>
    obtain ⟨chars, action⟩ := case
    rw [Case.munch, h, Option.any_some, find_cons]
    split
    · rfl
    · exact ih

/-- What comes of an action is what comes of the one that the next characters lead to. -/
theorem Action.munch_follow (h : action.follow v = some action') (hv : v <+: cs.drop n) :
    action.munch cs n = action'.munch cs (n + v.length) := by
  induction v generalizing action n with
  | nil =>
    cases h
    rfl
  | cons c v ih =>
    cases action with
    | finish rule => cases h
    | nested cases otherwise =>
      obtain ⟨action, hf, hfollow⟩ := Option.bind_eq_some_iff.1 h
      have hc : cs[n]? = some c := by
        obtain ⟨ds, hds⟩ := hv
        rw [← List.head?_drop, ← hds]
        rfl
      rw [drop_of_some hc] at hv
      rw [Action.munch, Case.munch_of_find hc, hf]
      dsimp only
      rw [ih hfollow (List.cons_prefix_cons.1 hv).2, List.length_cons, Nat.add_assoc, Nat.add_comm 1]

namespace Table

omit [Alphabet] in
theorem lookup_of_mem (ht : table ∈ contexts) (c : Char) :
    table.lookup c = if c.toNat < 128 then table.groups.findSome? (find · c) else none := by
  rcases mem_contexts.1 ht with rfl | rfl | rfl
  · exact lookup_compile (by decide) (by decide) c
  · exact lookup_compile (by decide) (by decide) c
  · exact lookup_compile (by decide) (by decide) c

theorem munch_of_follow (ht : table ∈ contexts) (h : table.follow v = some action) (hv : v <+: c :: cs) :
    table.munch c (c :: cs) = action.munch (c :: cs) v.length := by
  cases v with
  | nil => cases h
  | cons d v =>
    obtain ⟨rfl, hrest⟩ := List.cons_prefix_cons.1 hv
    rw [follow] at h
    split at h
    · next hascii =>
      obtain ⟨first, hfirst, hfollow⟩ := Option.bind_eq_some_iff.1 h
      have hl : table.lookup d = some first := by rw [lookup_of_mem ht, if_pos hascii, hfirst]
      have hfits : v <+: (d :: cs).drop 1 := hrest
      rw [munch_of_lookup hl, Action.munch_follow hfollow hfits, List.length_cons, Nat.add_comm]
    · cases h

/-- **What begins with a text after which a token is completed** is what the rule makes of it. -/
theorem munch_of_rule (ht : table ∈ contexts) (h : table.ruleAfter v = some rule) (hv : v <+: c :: cs) :
    table.munch c (c :: cs) = rule.munch (c :: cs) v.length := by
  obtain ⟨action, hfollow, hr⟩ := Option.bind_eq_some_iff.1 h
  rw [munch_of_follow ht hfollow hv]
  cases action with
  | finish r =>
    cases hr
    rw [Action.munch]
  | nested cases otherwise => cases hr

end Table

end Follow

/-! ## Sets of characters -/

mutual

/-- The characters of a set. -/
def CharSet.members : CharSet → List Char
  | .one c => [c]
  | .of cs => cs
  | .range lo hi =>
    ((List.range' lo.toNat (hi.toNat + 1 - lo.toNat)).map Char.ofNat).filter fun c => lo ≤ c && c ≤ hi
  | .union sets => CharSet.allMembers sets

/-- The characters of some sets. -/
def CharSet.allMembers : List CharSet → List Char
  | [] => []
  | s :: ss => s.members ++ CharSet.allMembers ss

end

mutual

theorem CharSet.mem_members {c : Char} : (s : CharSet) → (c ∈ s.members ↔ s.contains c = true)
  | .one a => by rw [members, contains, List.mem_singleton, beq_iff_eq, eq_comm]
  | .of cs => by simp [members, contains]
  | .range lo hi => by
    simp only [members, contains, List.mem_filter, and_iff_right_iff_imp, List.mem_map, List.mem_range'_1]
    intro h
    refine ⟨c.toNat, ?_, Char.ofNat_toNat c⟩
    simp only [Bool.and_eq_true, decide_eq_true_eq, Char.le_def, UInt32.le_iff_toNat_le] at h
    simp only [Char.toNat]
    omega
  | .union sets => by
    rw [members, contains]
    exact CharSet.mem_allMembers sets

theorem CharSet.mem_allMembers {c : Char} : (sets : List CharSet) →
    (c ∈ CharSet.allMembers sets ↔ CharSet.anyContains sets c = true)
  | [] => by simp [allMembers, anyContains]
  | s :: ss => by
    rw [allMembers, anyContains, List.mem_append, Bool.or_eq_true, CharSet.mem_members s, CharSet.mem_allMembers ss]

end

/-! ## Openings -/

/-- A text that a token may begin with, and how the token is completed after it. -/
structure Opening where
  /-- The text. -/
  text : List Char
  /-- What completes the token. -/
  rule : Rule
deriving DecidableEq, Repr

/-- The opening with the character `c` before it. -/
def Opening.after (c : Char) (o : Opening) : Opening := ⟨c :: o.text, o.rule⟩

mutual

/-- All that an action leads to. -/
def Action.openings : Action → List Opening
  | .finish rule => [⟨[], rule⟩]
  | .nested cases otherwise => ⟨[], otherwise⟩ :: Case.openings cases

/-- All that some cases lead to. -/
def Case.openings : List Case → List Opening
  | [] => []
  | ⟨chars, action⟩ :: cases =>
    (chars.members.flatMap fun c => action.openings.map (Opening.after c)) ++ Case.openings cases

end

/-- All that a table leads to. -/
def Table.openings (table : Table) : List Opening := table.groups.flatMap Case.openings

theorem Case.after_mem_openings {cases : List Case} {c : Char} {action : Action} (h : find cases c = some action)
    {o : Opening} (ho : o ∈ action.openings) : o.after c ∈ Case.openings cases := by
  induction cases with
  | nil => cases h
  | cons first cases ih =>
    obtain ⟨chars, action'⟩ := first
    rw [find_cons] at h
    rw [Case.openings]
    split at h
    · next hin =>
      cases h
      refine List.mem_append_left _ (List.mem_flatMap.2 ⟨c, (CharSet.mem_members _).2 hin, ?_⟩)
      exact List.mem_map_of_mem ho
    · exact List.mem_append_right _ (ih h)

section Munch

variable [Alphabet] {c : Char} {cs : List Char}

variable (cs) in
mutual

/-- What comes of an action comes of one of its openings, and the text goes on with that. -/
theorem Action.exists_opening : (action : Action) → (n : Nat) → ∃ o ∈ action.openings, o.text <+: cs.drop n ∧
    action.munch cs n = o.rule.munch cs (n + o.text.length)
  | .finish rule, n => by
    refine ⟨⟨[], rule⟩, List.mem_cons_self, List.nil_prefix, ?_⟩
    rw [Action.munch]
    rfl
  | .nested cases otherwise, n => by
    rw [Action.munch, Action.openings]
    rcases Case.exists_opening cases otherwise n with ⟨o, ho, hfits, heq⟩ | heq
    · exact ⟨o, List.mem_cons_of_mem _ ho, hfits, heq⟩
    · exact ⟨⟨[], otherwise⟩, List.mem_cons_self, List.nil_prefix, heq⟩

theorem Case.exists_opening : (cases : List Case) → (other : Rule) → (n : Nat) →
    (∃ o ∈ Case.openings cases, o.text <+: cs.drop n ∧
      Case.munch cs n other cases = o.rule.munch cs (n + o.text.length)) ∨
    Case.munch cs n other cases = other.munch cs n
  | [], other, n => by
    rw [Case.munch]
    exact .inr rfl
  | ⟨chars, action⟩ :: cases, other, n => by
    rw [Case.munch]
    split
    · next hin =>
      obtain ⟨c, hc, hin⟩ := (Option.any_eq_true _ _).1 hin
      obtain ⟨o, ho, hfits, heq⟩ := Action.exists_opening action (n + 1)
      refine .inl ⟨o.after c, Case.after_mem_openings (by rw [find_cons, if_pos hin]) ho, ?_, heq.trans ?_⟩
      · rw [drop_of_some hc]
        exact List.cons_prefix_cons.2 ⟨rfl, hfits⟩
      · rw [Opening.after, List.length_cons, Nat.add_assoc, Nat.add_comm 1]
    · rcases Case.exists_opening cases other n with ⟨o, ho, hfits, heq⟩ | heq
      · rw [Case.openings]
        exact .inl ⟨o, List.mem_append_right _ ho, hfits, heq⟩
      · exact .inr heq

end

variable (c cs) in
/-- **What comes of a text comes of one of the openings of the table**, and the text begins with that. If the table
knows nothing of the first character, it begins an identifier or is unknown. -/
theorem Table.exists_opening {table : Table} (ht : table ∈ contexts) :
    (∃ o ∈ table.openings, o.text <+: c :: cs ∧
      table.munch c (c :: cs) = o.rule.munch (c :: cs) o.text.length) ∨
    table.munch c (c :: cs) = if isIdentStart c then Routine.identifier.munch (c :: cs) 1 else ⟨.unknown, 1, []⟩ := by
  rw [munch]
  cases hl : table.lookup c with
  | none => exact .inr rfl
  | some action =>
    obtain ⟨o, ho, hfits, heq⟩ := action.exists_opening (c :: cs) 1
    refine .inl ⟨o.after c, ?_, List.cons_prefix_cons.2 ⟨rfl, hfits⟩, heq.trans ?_⟩
    · rw [lookup_of_mem ht] at hl
      split at hl
      · obtain ⟨cases, hcases, hf⟩ := List.exists_of_findSome?_eq_some hl
        exact List.mem_flatMap.2 ⟨cases, hcases, Case.after_mem_openings hf ho⟩
      · cases hl
    · rw [Opening.after, List.length_cons, Nat.add_comm 1]

end Munch

/-! ## Texts that are one token -/

/-- The first `n` characters are the longest prefix of a text with the property `P`. -/
structure Text.LongestPrefix (P : List Char → Prop) (cs : List Char) (n : Nat) : Prop where
  le : n ≤ cs.length
  holds : P (cs.take n)
  longest : ∀ m ≤ cs.length, P (cs.take m) → m ≤ n

theorem Text.LongestPrefix.unique {P : List Char → Prop} {cs : List Char} {n m : Nat} (h : LongestPrefix P cs n)
    (h' : LongestPrefix P cs m) : n = m :=
  Nat.le_antisymm (h'.longest n h.le h.holds) (h.longest m h'.le h'.holds)

/-- A character before a text lengthens the longest prefix by one. -/
theorem Text.LongestPrefix.cons {P Q : List Char → Prop} {c : Char} {cs : List Char} {n : Nat}
    (h : LongestPrefix Q cs n) (hPQ : ∀ v, P (c :: v) ↔ Q v) : LongestPrefix P (c :: cs) (n + 1) where
  le := Nat.succ_le_succ h.le
  holds := (hPQ _).2 h.holds
  longest m hm hP := by
    cases m with
    | zero => exact Nat.zero_le _
    | succ m => exact Nat.succ_le_succ (h.longest m (Nat.le_of_succ_le_succ hm) ((hPQ _).1 hP))

/-- The tokens of the kind `k` are the texts with the property `P`. Where there is one, it is the longest. -/
structure Table.Reads [Alphabet] (table : Table) (k : TokenKind) (P : List Char → Prop) : Prop where
  nonempty : ¬ P []
  munch_kind : ∀ c cs, P (c :: cs) → (table.munch c (c :: cs)).kind = k
  pairs : ∀ c cs, (table.munch c (c :: cs)).kind = k → (table.munch c (c :: cs)).pairs = []
  longest : ∀ c cs, (table.munch c (c :: cs)).kind = k → LongestPrefix P (c :: cs) (table.munch c (c :: cs)).length

namespace Replay

variable {table : Table} {k : TokenKind} {P : List Char → Prop} {w : List Glyph} {c : Char} {cs : List Char}

theorem eq_nil_of_spelling (hw : ∀ g ∈ w, g.Placed) (h : spelling w = []) : w = [] := by
  rw [← List.length_eq_zero_iff, ← Glyph.length_spelling hw, h, List.length_nil]

variable [Alphabet]

variable (table) in
theorem exists_of_spelling_cons (hw : ∀ g ∈ w, g.Placed) (hcs : spelling w = c :: cs) :
    ∃ g gs, w = g :: gs ∧ (∀ x ∈ g :: gs, x.Placed) ∧ table.first g gs = table.munch c (c :: cs) := by
  obtain ⟨g, gs, rfl, hg, -⟩ := Glyph.exists_of_spelling hw hcs
  refine ⟨g, gs, rfl, hw, ?_⟩
  rw [Table.first, hg, hcs]
  rfl

/-- **The first token of some glyphs is what the table makes of their characters.** -/
theorem tokenOf_munch (hs : table.sound = true) (hw : ∀ g ∈ w, g.Placed) (name : Option String)
    (hcs : spelling w = c :: cs) : (table.munch c (c :: cs)).length ≤ w.length ∧ tokenOf table w name =
      .ok (some ⟨(table.munch c (c :: cs)).glyphs w, (table.munch c (c :: cs)).kind, []⟩,
        w.drop (table.munch c (c :: cs)).length) := by
  obtain ⟨g, gs, rfl, hw, hfirst⟩ := exists_of_spelling_cons table hw hcs
  rw [← hfirst]
  exact ⟨length_first_le hs hw, tokenOf_cons hs name hw⟩

theorem tokenOf_nil (table : Table) (name : Option String) : tokenOf table [] name = .ok (none, []) := by
  have hnil : ScanM.Gives (Ready []) (Scanner.readToken table) fun o s => o = none ∧ Ready [] s := readToken_nil
  obtain ⟨_, hrun, rfl, -, hcoming⟩ := ScanM.run_of_gives hnil (s := .ofSource (ofGlyphs [] name)) ⟨rfl, rfl⟩
  unfold tokenOf
  dsimp only
  rw [hrun, hcoming]
  rfl

/-- Whatever is read first is not of the kind `k` if what the table makes of the text is not. -/
theorem tokenOf_kind_ne (hs : table.sound = true) (hw : ∀ g ∈ w, g.Placed) (name : Option String)
    (h : ∀ c cs, spelling w = c :: cs → (table.munch c (c :: cs)).kind ≠ k) :
    ∃ o rest, tokenOf table w name = .ok (o, rest) ∧ ∀ t ∈ o, t.kind ≠ k := by
  cases hcs : spelling w with
  | nil =>
    obtain rfl := eq_nil_of_spelling hw hcs
    exact ⟨none, [], tokenOf_nil table name, nofun⟩
  | cons c cs =>
    refine ⟨_, _, (tokenOf_munch hs hw name hcs).2, ?_⟩
    rintro t ⟨⟩
    exact h c cs hcs

/-- Some glyphs are a single token if the first one takes them all. -/
theorem tokensOf_singleton_iff (hs : table.sound = true) (hw : ∀ g ∈ w, g.Placed) (name : Option String)
    (hcs : spelling w = c :: cs) : (∃ t, tokensOf table w name = .ok [t] ∧ t.kind = k) ↔
      (table.munch c (c :: cs)).kind = k ∧ (table.munch c (c :: cs)).length = w.length := by
  obtain ⟨g, gs, rfl, hw, hfirst⟩ := exists_of_spelling_cons table hw hcs
  rw [← hfirst, tokensOf_eq hs name hw]
  constructor
  · rintro ⟨t, ht, hk⟩
    obtain ⟨rfl, hlen⟩ := eq_of_divide_singleton hs hw (Except.ok.inj ht)
    exact ⟨hk, hlen⟩
  · rintro ⟨hk, hlen⟩
    refine ⟨table.firstToken g gs, ?_, hk⟩
    rw [Table.divide_cons hs, hlen, List.drop_length, Table.divide_nil]

/-- Some glyphs are a single token of a kind if and only if their text has the property. -/
theorem tokensOf_kind_iff (hs : table.sound = true) (hP : table.Reads k P) (hw : ∀ g ∈ w, g.Placed)
    (name : Option String) : (∃ t, tokensOf table w name = .ok [t] ∧ t.kind = k) ↔ P (spelling w) := by
  cases hcs : spelling w with
  | nil =>
    obtain rfl := eq_nil_of_spelling hw hcs
    rw [tokensOf_eq hs name hw, Table.divide_nil]
    constructor
    · rintro ⟨t, ht, -⟩
      cases ht
    · exact fun h => absurd h hP.nonempty
  | cons c cs =>
    rw [tokensOf_singleton_iff hs hw name hcs, ← Glyph.length_spelling hw, hcs]
    constructor
    · rintro ⟨hk, hall⟩
      have hholds := (hP.longest c cs hk).holds
      rwa [hall, List.take_length] at hholds
    · intro h
      have hk := hP.munch_kind c cs h
      have hlong := hP.longest c cs hk
      refine ⟨hk, Nat.le_antisymm hlong.le (hlong.longest _ (Nat.le_refl _) ?_)⟩
      rwa [List.take_length]

/-- If the table makes a token of the kind of some glyphs, it is their longest prefix with the property. -/
theorem tokenOf_longest (hs : table.sound = true) (hP : table.Reads k P) (hw : ∀ g ∈ w, g.Placed)
    (name : Option String) (hcs : spelling w = c :: cs) (hk : (table.munch c (c :: cs)).kind = k) :
    ∃ n, LongestPrefix P (spelling w) n ∧ tokenOf table w name = .ok (some ⟨w.take n, k, []⟩, w.drop n) := by
  rw [hcs]
  refine ⟨_, hP.longest c cs hk, ?_⟩
  rw [(tokenOf_munch hs hw name hcs).2, Munch.glyphs, if_pos (hP.pairs c cs hk), hk]

/-- If a token of the kind is read, it is the longest prefix with the property. -/
theorem longest_of_tokenOf (hs : table.sound = true) (hP : table.Reads k P) (hw : ∀ g ∈ w, g.Placed)
    {name : Option String} {t : Token} {rest : List Glyph} (h : tokenOf table w name = .ok (some t, rest))
    (hk : t.kind = k) : ∃ n, LongestPrefix P (spelling w) n ∧ t = ⟨w.take n, k, []⟩ ∧ rest = w.drop n := by
  by_cases hkind : ∃ c cs, spelling w = c :: cs ∧ (table.munch c (c :: cs)).kind = k
  · obtain ⟨c, cs, hcs, hkind⟩ := hkind
    obtain ⟨n, hn, hread⟩ := tokenOf_longest hs hP hw name hcs hkind
    cases h.symm.trans hread
    exact ⟨n, hn, rfl, rfl⟩
  · obtain ⟨o, rest', hread, hne⟩ := tokenOf_kind_ne hs hw name fun c cs hcs hkind' => hkind ⟨c, cs, hcs, hkind'⟩
    cases h.symm.trans hread
    exact absurd hk (hne t rfl)

end Replay

end Pretoken
