import Mathlib.Tactic.IntervalCases
import Pretoken.Proofs.Literals

/-!
# Identifiers

An identifier is a letter and then letters and digits, where a universal character name may stand for any of them.
Which characters beyond ASCII are letters does not matter here.

* `Text.UniversalName`, `Text.IdentifierTail`, `Text.Identifier`: the grammar.
* `Text.isHex_iff`: scanners take the hexadecimal digits of the grammar.
* `Text.longestPrefix_tail`, `Text.longestPrefix_identifier`: how far an identifier goes.
* `Alphabet.ascii`: the least alphabet, for which openings can be looked through.
* `Table.munch_identifier`, `Table.kind_of_startsIdentifier`: which tokens are identifiers.
* **`Replay.tokenOf_identifier`**: identifiers are exactly their grammar.
-/

namespace Pretoken

open Glyph (spelling)

namespace Text

/-! ## The grammar -/

/-- The digits of hexadecimal numbers. -/
def hexadecimals : List Char :=
  ['0', '1', '2', '3', '4', '5', '6', '7', '8', '9', 'a', 'b', 'c', 'd', 'e', 'f', 'A', 'B', 'C', 'D', 'E', 'F']

/-- A universal character name: `\u` and four digits, or `\U` and eight. -/
inductive UniversalName : List Char → Prop
  | short {ds : List Char} (length : ds.length = 4) (digits : ∀ d ∈ ds, d ∈ hexadecimals) :
    UniversalName ('\\' :: 'u' :: ds)
  | long {ds : List Char} (length : ds.length = 8) (digits : ∀ d ∈ ds, d ∈ hexadecimals) :
    UniversalName ('\\' :: 'U' :: ds)

/-- What may follow the beginning of an identifier. -/
inductive IdentifierTail [Alphabet] : List Char → Prop
  | nil : IdentifierTail []
  | char {c : Char} {cs : List Char} (here : isIdentContinue c = true) (rest : IdentifierTail cs) :
    IdentifierTail (c :: cs)
  | name {u cs : List Char} (here : UniversalName u) (rest : IdentifierTail cs) : IdentifierTail (u ++ cs)

/-- An identifier. -/
inductive Identifier [Alphabet] : List Char → Prop
  | char {c : Char} {cs : List Char} (here : isIdentStart c = true) (rest : IdentifierTail cs) : Identifier (c :: cs)
  | name {u cs : List Char} (here : UniversalName u) (rest : IdentifierTail cs) : Identifier (u ++ cs)

section Grammar

variable {u v cs : List Char} {c : Char}

theorem upTo_append {p : Char → Bool} {ds : List Char} (h : ∀ d ∈ ds, p d = true) (cs : List Char) :
    upTo p ds.length (ds ++ cs) = ds.length := by
  induction ds with
  | nil => exact upTo_zero p cs
  | cons d ds ih =>
    rw [List.forall_mem_cons] at h
    rw [List.length_cons, List.cons_append, upTo_succ_cons, if_pos h.1, ih h.2]

/-- The scanner's digits are those of the grammar. -/
theorem isHex_iff : isHex c = true ↔ c ∈ hexadecimals := by
  constructor
  · intro h
    simp only [isHex, isDigit, Bool.or_eq_true, Bool.and_eq_true, decide_eq_true_eq, Char.le_def,
      UInt32.le_iff_toNat_le, Char.reduceVal, UInt32.reduceToNat] at h
    change (48 ≤ c.toNat ∧ c.toNat ≤ 57 ∨ 97 ≤ c.toNat ∧ c.toNat ≤ 102) ∨ 65 ≤ c.toNat ∧ c.toNat ≤ 70 at h
    rw [← Char.ofNat_toNat c]
    generalize c.toNat = n at h
    rcases h with (⟨hlo, hhi⟩ | ⟨hlo, hhi⟩) | ⟨hlo, hhi⟩ <;> interval_cases n <;> decide
  · have hall : ∀ d ∈ hexadecimals, isHex d = true := List.all_eq_true.1 rfl
    exact hall c

/-- A universal character name by its letter and its digits. -/
theorem universalName_iff : UniversalName u ↔
    ∃ c n ds, universalDigits? c = some n ∧ ds.length = n ∧ (∀ d ∈ ds, isHex d = true) ∧ u = '\\' :: c :: ds := by
  constructor
  · rintro (⟨hlen, hds⟩ | ⟨hlen, hds⟩)
    · exact ⟨'u', 4, _, rfl, hlen, fun d hd => isHex_iff.2 (hds d hd), rfl⟩
    · exact ⟨'U', 8, _, rfl, hlen, fun d hd => isHex_iff.2 (hds d hd), rfl⟩
  · rintro ⟨c, n, ds, hn, hlen, hds, rfl⟩
    rcases universalDigits?_eq hn with ⟨rfl, rfl⟩ | ⟨rfl, rfl⟩
    · exact .short hlen fun d hd => isHex_iff.1 (hds d hd)
    · exact .long hlen fun d hd => isHex_iff.1 (hds d hd)

/-- The rest of a universal character name is there if and only if the name is. -/
theorem startsUniversal_iff_name : startsUniversal cs = true ↔ ∃ u, UniversalName u ∧ u <+: '\\' :: cs := by
  rw [startsUniversal_iff]
  constructor
  · rintro ⟨c, ds, n, rfl, hn, hds⟩
    have hle : upTo isHex n ds ≤ ds.length := reach_le_length _ _ ds
    rw [hds] at hle
    refine ⟨'\\' :: c :: ds.take n, universalName_iff.2 ⟨c, n, ds.take n, hn, List.length_take_of_le hle, ?_, rfl⟩, ?_⟩
    · exact fun d hd => of_mem_upTo (hds.symm ▸ hd)
    · exact List.cons_prefix_cons.2 ⟨rfl, List.cons_prefix_cons.2 ⟨rfl, List.take_prefix n ds⟩⟩
  · rintro ⟨u, hu, r, hr⟩
    obtain ⟨c, n, ds, hn, rfl, hds, rfl⟩ := universalName_iff.1 hu
    obtain rfl : c :: ds ++ r = cs := (List.cons.inj hr).2
    exact ⟨c, ds ++ r, ds.length, rfl, hn, upTo_append hds r⟩

variable [Alphabet]

/-! ## How far an identifier goes -/

theorem identifierLength_char (h : isIdentContinue c = true) (cs : List Char) :
    identifierLength (c :: cs) = identifierLength cs + 1 := by
  rw [identifierLength, h, Bool.true_or, if_pos rfl]

theorem identifierLength_append (h : ∀ c ∈ v, isIdentContinue c = true) (cs : List Char) :
    identifierLength (v ++ cs) = v.length + identifierLength cs := by
  induction v with
  | nil => exact (Nat.zero_add _).symm
  | cons c v ih =>
    rw [List.forall_mem_cons] at h
    rw [List.cons_append, identifierLength_char h.1, ih h.2, List.length_cons]
    omega

theorem identifierLength_backslash (h : startsUniversal cs = true) :
    identifierLength ('\\' :: cs) = identifierLength cs + 1 := by
  rw [identifierLength, h, Bool.and_true, beq_self_eq_true, Bool.or_true, if_pos rfl]

/-- All of a universal character name goes on with an identifier. -/
theorem UniversalName.identifierLength_append (hu : UniversalName u) (cs : List Char) :
    identifierLength (u ++ cs) = u.length + identifierLength cs := by
  obtain ⟨c, n, ds, hn, -, hds, rfl⟩ := universalName_iff.1 hu
  have hstarts : startsUniversal (c :: ds ++ cs) = true :=
    startsUniversal_iff_name.2 ⟨'\\' :: c :: ds, hu, List.prefix_append _ cs⟩
  have hall : ∀ d ∈ c :: ds, isIdentContinue d = true :=
    List.forall_mem_cons.2 ⟨isIdentContinue_of_universal hn, fun d hd => isIdentContinue_of_isHex (hds d hd)⟩
  rw [List.cons_append, identifierLength_backslash hstarts, Text.identifierLength_append hall]
  exact Nat.add_right_comm _ _ 1

theorem identifierLength_le (cs : List Char) : identifierLength cs ≤ cs.length := by
  induction cs with
  | nil => exact Nat.le_refl 0
  | cons c cs ih =>
    rw [identifierLength, List.length_cons]
    split
    · exact Nat.succ_le_succ ih
    · exact Nat.zero_le _

theorem IdentifierTail.length_le (h : IdentifierTail v) (cs : List Char) : v.length ≤ identifierLength (v ++ cs) := by
  induction h with
  | nil => exact Nat.zero_le _
  | char here _ ih =>
    rw [List.cons_append, identifierLength_char here, List.length_cons]
    exact Nat.succ_le_succ ih
  | name here _ ih =>
    rw [List.append_assoc, here.identifierLength_append, List.length_append]
    exact Nat.add_le_add_left ih _

theorem identifierTail_take (cs : List Char) : IdentifierTail (cs.take (identifierLength cs)) := by
  induction hn : cs.length using Nat.strongRecOn generalizing cs with
  | ind n ih =>
    subst hn
    cases cs with
    | nil => exact .nil
    | cons c cs =>
      by_cases hc : isIdentContinue c = true
      · rw [identifierLength_char hc, List.take_succ_cons]
        exact .char hc (ih _ (Nat.lt_succ_self _) cs rfl)
      by_cases hu : c = '\\' ∧ startsUniversal cs = true
      · -- a whole name goes on with the identifier, and what follows it is shorter
        obtain ⟨rfl, hstarts⟩ := hu
        obtain ⟨u, hu, r, hr⟩ := startsUniversal_iff_name.1 hstarts
        have hne : 0 < u.length := by
          obtain ⟨_, _, _, -, -, -, rfl⟩ := universalName_iff.1 hu
          exact Nat.succ_pos _
        rw [← hr, hu.identifierLength_append, List.take_length_add_append]
        refine .name hu (ih _ ?_ r rfl)
        rw [← hr, List.length_append]
        omega
      · rw [identifierLength, if_neg, List.take_zero]
        · exact .nil
        · simpa [hc] using hu

theorem longestPrefix_tail (cs : List Char) : LongestPrefix IdentifierTail cs (identifierLength cs) where
  le := identifierLength_le cs
  holds := identifierTail_take cs
  longest m hm h := by
    have hle := h.length_le (cs.drop m)
    rwa [List.take_append_drop, List.length_take_of_le hm] at hle

theorem isIdentStart_backslash : isIdentStart '\\' = false := rfl

theorem isIdentContinue_backslash : isIdentContinue '\\' = false := rfl

/-- A backslash goes on with an identifier only as part of a universal character name. -/
theorem IdentifierTail.exists_name (h : IdentifierTail ('\\' :: cs)) :
    ∃ u rest, UniversalName u ∧ IdentifierTail rest ∧ u ++ rest = '\\' :: cs := by
  generalize hcs : '\\' :: cs = v at h
  cases h with
  | nil => cases hcs
  | char here rest =>
    obtain ⟨rfl, rfl⟩ := List.cons.inj hcs
    rw [isIdentContinue_backslash] at here
    cases here
  | name here rest => exact ⟨_, _, here, rest, rfl⟩

/-- What an identifier begins with decides what else has to be looked at. -/
theorem identifier_cons_iff : Identifier (c :: cs) ↔
    isIdentStart c = true ∧ IdentifierTail cs ∨ c = '\\' ∧ IdentifierTail (c :: cs) := by
  constructor
  · intro h
    generalize hcs : c :: cs = v at h
    cases h with
    | char here rest =>
      obtain ⟨rfl, rfl⟩ := List.cons.inj hcs
      exact .inl ⟨here, rest⟩
    | name here rest =>
      refine .inr ⟨?_, .name here rest⟩
      obtain ⟨_, _, _, -, -, -, rfl⟩ := universalName_iff.1 here
      exact (List.cons.inj hcs).1
  · rintro (⟨here, rest⟩ | ⟨rfl, h⟩)
    · exact .char here rest
    · obtain ⟨u, rest, here, hrest, hcs⟩ := h.exists_name
      rw [← hcs]
      exact .name here hrest

theorem not_identifier_nil : ¬ Identifier [] := by
  intro h
  generalize hcs : [] = v at h
  cases h with
  | char here rest => cases hcs
  | name here rest =>
    obtain ⟨_, _, _, -, -, -, rfl⟩ := universalName_iff.1 here
    cases hcs

/-- A text begins with an identifier if it begins with a letter or with a universal character name. -/
def StartsIdentifier (c : Char) (cs : List Char) : Prop :=
  isIdentStart c = true ∨ c = '\\' ∧ startsUniversal cs = true

/-- **An identifier goes as far as the longest prefix that is one.** -/
theorem longestPrefix_identifier (h : StartsIdentifier c cs) :
    LongestPrefix Identifier (c :: cs) (identifierLength cs + 1) := by
  rcases h with hc | ⟨rfl, hstarts⟩
  · have hne : c ≠ '\\' := by
      rintro rfl
      rw [isIdentStart_backslash] at hc
      cases hc
    refine (longestPrefix_tail cs).cons fun v => ?_
    rw [identifier_cons_iff, and_iff_right hc, or_iff_left fun h => hne h.1]
  · have hall := longestPrefix_tail ('\\' :: cs)
    rw [identifierLength_backslash hstarts] at hall
    have htail (m : Nat) (hid : Identifier ('\\' :: cs.take m)) : IdentifierTail ('\\' :: cs.take m) := by
      rcases identifier_cons_iff.1 hid with ⟨hc, -⟩ | ⟨-, hid⟩
      · rw [isIdentStart_backslash] at hc
        cases hc
      · exact hid
    refine ⟨hall.le, identifier_cons_iff.2 (.inr ⟨rfl, hall.holds⟩), fun m hm hid => ?_⟩
    cases m with
    | zero => exact Nat.zero_le _
    | succ m => exact hall.longest _ hm (htail m hid)

/-- Whatever is an identifier begins like one, with anything behind it. -/
theorem Identifier.starts (h : Identifier (c :: v)) (hv : v <+: cs) : StartsIdentifier c cs := by
  rcases identifier_cons_iff.1 h with ⟨hc, -⟩ | ⟨rfl, hall⟩
  · exact .inl hc
  · refine .inr ⟨rfl, ?_⟩
    obtain ⟨u, rest, here, -, hcs⟩ := hall.exists_name
    refine startsUniversal_iff_name.2 ⟨u, here, (List.prefix_append u rest).trans ?_⟩
    rw [hcs]
    exact List.cons_prefix_cons.2 ⟨rfl, hv⟩

/-- The characters of a universal character name are a backslash and others that may stand in an identifier. -/
theorem UniversalName.mem (h : UniversalName u) : ∀ x ∈ u, x = '\\' ∨ isIdentContinue x = true := by
  obtain ⟨c, n, ds, hn, -, hds, rfl⟩ := universalName_iff.1 h
  simp only [List.forall_mem_cons]
  exact ⟨.inl trivial, .inr (isIdentContinue_of_universal hn), fun d hd => .inr (isIdentContinue_of_isHex (hds d hd))⟩

theorem IdentifierTail.mem (h : IdentifierTail v) : ∀ x ∈ v, x = '\\' ∨ isIdentContinue x = true := by
  induction h with
  | nil => exact nofun
  | char here _ ih => exact List.forall_mem_cons.2 ⟨.inr here, ih⟩
  | name here _ ih => exact List.forall_mem_append.2 ⟨here.mem, ih⟩

theorem Identifier.mem (h : Identifier v) : ∀ x ∈ v, x = '\\' ∨ isIdentStart x = true ∨ isIdentContinue x = true := by
  cases h with
  | char here rest => exact List.forall_mem_cons.2 ⟨.inr (.inl here), fun x hx => (rest.mem x hx).imp_right .inr⟩
  | name here rest =>
    exact List.forall_mem_append.2 ⟨fun x hx => (here.mem x hx).imp_right .inr,
      fun x hx => (rest.mem x hx).imp_right .inr⟩

/-- An identifier is no beginning of a literal. -/
theorem Identifier.not_opens (h : Identifier v) (l : Literal) : ¬ l.Opens v := by
  rintro ⟨p, -, hp⟩
  have hquote := h.mem l.quote (hp.subset (List.mem_append_right _ List.mem_cons_self))
  cases l <;> simp [Literal.quote, isIdentStart, isIdentContinue, isAscii, isLetter, isDigit] at hquote

end Grammar

end Text

/-! ## Identifiers in tables -/

/-- The alphabet that has no characters beyond ASCII. -/
@[reducible] def Alphabet.ascii : Alphabet where
  begins _ := false
  continues _ := false

section

variable [Alphabet] {c : Char}

theorem isIdentStart_of_ascii (h : @isIdentStart Alphabet.ascii c = true) : isIdentStart c = true := by
  unfold isIdentStart at h ⊢
  split at h
  · next hc => rwa [if_pos hc]
  · cases h

theorem isIdentContinue_of_ascii (h : @isIdentContinue Alphabet.ascii c = true) : isIdentContinue c = true := by
  unfold isIdentContinue at h ⊢
  split at h
  · next hc => rwa [if_pos hc]
  · cases h

theorem ascii_of_isIdentStart (h : isIdentStart c = true) (hc : isAscii c = true) :
    @isIdentStart Alphabet.ascii c = true := by
  unfold isIdentStart at h ⊢
  rwa [if_pos hc] at h ⊢

end

namespace Table

open Text

variable {table : Table}

/-- How universal character names begin. -/
def universalNames : List Opening :=
  [⟨['\\', 'u'], .routine (.universalName 4)⟩, ⟨['\\', 'U'], .routine (.universalName 8)⟩]

theorem mem_universalNames {o : Opening} : o ∈ universalNames ↔
    ∃ d n, universalDigits? d = some n ∧ o = ⟨['\\', d], .routine (.universalName n)⟩ := by
  simp only [universalNames, List.mem_cons, List.not_mem_nil, or_false]
  constructor
  · rintro (rfl | rfl)
    · exact ⟨'u', 4, rfl, rfl⟩
    · exact ⟨'U', 8, rfl, rfl⟩
  · rintro ⟨d, n, hn, rfl⟩
    rcases universalDigits?_eq hn with ⟨rfl, rfl⟩ | ⟨rfl, rfl⟩
    · exact .inl rfl
    · exact .inr rfl

/-- Identifiers begin with characters of identifiers, or like a universal character name. -/
theorem opening_of_identifier (ht : table ∈ contexts) : ∀ o ∈ table.openings, .identifier ∈ o.rule.kinds →
    o.rule = identifier ∧ o.text.head?.any (@isIdentStart Alphabet.ascii) = true ∧
      o.text.tail.all (@isIdentContinue Alphabet.ascii) = true ∨ o ∈ universalNames := by
  rcases mem_contexts.1 ht with rfl | rfl | rfl <;> decide +kernel

/-- What begins like an identifier is one, or a literal. -/
theorem rule_of_isIdentStart (ht : table ∈ contexts) : ∀ o ∈ table.openings, o.text.head?.any isAscii = true ∧
    (o.text.head?.any (@isIdentStart Alphabet.ascii) = true → o.rule = identifier ∨ o.rule = Literal.string.rule ∨
      o.rule = Literal.character.rule) := by
  rcases mem_contexts.1 ht with rfl | rfl | rfl <;> decide +kernel

theorem ruleAfter_universalName (ht : table ∈ contexts) :
    ∀ o ∈ universalNames, table.ruleAfter o.text = some o.rule := by
  rcases mem_contexts.1 ht with rfl | rfl | rfl <;> decide +kernel

variable [Alphabet] {c : Char} {cs : List Char}

/-- What of an opening is taken already goes on with the identifier. -/
theorem munch_rule_identifier {v : List Char} (hv : ∀ x ∈ v, isIdentContinue x = true) (c : Char) (r : List Char) :
    identifier.munch (c :: (v ++ r)) (c :: v).length = ⟨.identifier, identifierLength (v ++ r) + 1, []⟩ := by
  rw [identifierLength_append hv, Table.identifier, Rule.munch, Routine.munch, List.length_cons, List.drop_succ_cons,
    List.drop_left, Nat.add_right_comm]

theorem munch_rule_universalName {d : Char} {n : Nat} (hn : universalDigits? d = some n) (r : List Char) :
    (Rule.routine (.universalName n)).munch ('\\' :: d :: r) 2 =
      if upTo isHex n r = n then ⟨.identifier, identifierLength (d :: r) + 1, []⟩ else ⟨.unknown, 1, []⟩ := by
  rw [identifierLength_char (isIdentContinue_of_universal hn), Nat.add_assoc, Nat.add_comm]
  rfl

/-- **An identifier takes all that goes on with it**, whatever its opening is. -/
theorem munch_identifier (ht : table ∈ contexts) (hk : (table.munch c (c :: cs)).kind = .identifier) :
    table.munch c (c :: cs) = ⟨.identifier, identifierLength cs + 1, []⟩ ∧ StartsIdentifier c cs := by
  rcases exists_opening c cs ht with ⟨o, ho, hfits, heq⟩ | heq
  · rw [heq] at hk ⊢
    rcases opening_of_identifier ht o ho (hk ▸ o.rule.kind_munch) with ⟨hr, hhead, htail⟩ | hname
    · obtain ⟨d, hd, hstart⟩ := (Option.any_eq_true _ _).1 hhead
      obtain ⟨v, hv⟩ := List.head?_eq_some_iff.1 hd
      rw [hv] at hfits htail ⊢
      obtain ⟨rfl, r, rfl⟩ := List.cons_prefix_cons.1 hfits
      rw [hr]
      exact ⟨munch_rule_identifier (fun x hx => isIdentContinue_of_ascii (List.all_eq_true.1 htail x hx)) d r,
        .inl (isIdentStart_of_ascii hstart)⟩
    · obtain ⟨d, n, hn, rfl⟩ := mem_universalNames.1 hname
      obtain ⟨rfl, r, rfl⟩ := List.cons_prefix_cons.1 hfits
      have hm := munch_rule_universalName hn r
      -- the digits are there, since otherwise the backslash would stand alone
      split at hm
      · next hds => exact ⟨hm, .inr ⟨rfl, startsUniversal_iff.2 ⟨d, r, n, rfl, hn, hds⟩⟩⟩
      · cases (congrArg Munch.kind hm).symm.trans hk
  · rw [heq] at hk ⊢
    split at hk
    · next hstart =>
      rw [if_pos hstart]
      exact ⟨munch_rule_identifier (v := []) nofun c cs, .inl hstart⟩
    · cases hk

/-- What begins like an identifier is read as one, unless a literal begins there. -/
theorem kind_of_startsIdentifier (ht : table ∈ contexts) (h : StartsIdentifier c cs)
    (hl : ∀ l : Literal, ¬ l.Opens (c :: cs)) : (table.munch c (c :: cs)).kind = .identifier := by
  rcases h with hstart | ⟨rfl, huniversal⟩
  · rcases exists_opening c cs ht with ⟨o, ho, hfits, heq⟩ | heq
    · have hno (l : Literal) : o.rule ≠ l.rule := by
        intro hr
        have hk : l.kind ∈ o.rule.kinds := by
          rw [hr]
          exact List.mem_cons_self
        obtain ⟨-, p, hp, htext⟩ := eq_of_literal_kind ht l o ho hk
        exact hl l ⟨p, hp, htext ▸ hfits⟩
      obtain ⟨hhead, hrule⟩ := rule_of_isIdentStart ht o ho
      obtain ⟨d, hd, hascii⟩ := (Option.any_eq_true _ _).1 hhead
      obtain ⟨v, hv⟩ := List.head?_eq_some_iff.1 hd
      rw [hv] at hfits
      obtain rfl := (List.cons_prefix_cons.1 hfits).1
      rw [hd] at hrule
      rcases hrule (ascii_of_isIdentStart hstart hascii) with hr | hr | hr
      · rw [heq, hr]
        rfl
      · exact absurd hr (hno .string)
      · exact absurd hr (hno .character)
    · rw [heq, if_pos hstart]
      rfl
  · obtain ⟨d, ds, n, rfl, hn, hds⟩ := startsUniversal_iff.1 huniversal
    have hname := ruleAfter_universalName ht _ (mem_universalNames.2 ⟨d, n, hn, rfl⟩)
    have hfits : ['\\', d] <+: '\\' :: d :: ds := List.prefix_append ['\\', d] ds
    have hm := munch_rule_universalName hn ds
    rw [if_pos hds] at hm
    rw [munch_of_rule ht hname hfits]
    exact congrArg Munch.kind hm

/-- The identifiers of a table are those of the grammar. -/
theorem reads_identifier (ht : table ∈ contexts) : table.Reads .identifier Identifier where
  nonempty := not_identifier_nil
  munch_kind _ cs h := kind_of_startsIdentifier ht (h.starts (List.prefix_refl cs)) h.not_opens
  pairs _ _ hk := by rw [(munch_identifier ht hk).1]
  longest c cs hk := by
    obtain ⟨hm, hstarts⟩ := munch_identifier ht hk
    rw [hm]
    exact longestPrefix_identifier hstarts

end Table

/-! ## Reading identifiers -/

namespace Replay

open Text

section

variable [Alphabet] {table : Table} {w : List Glyph}

/-- **Identifiers are exactly their grammar**, whatever the characters beyond ASCII are that they are made of. In every
context some glyphs are a single token, an identifier, if and only if their text is one. An identifier that is read
first is the longest prefix that is one, and all that follows is left. One is read whenever there is such a prefix,
unless a literal begins there. -/
theorem tokenOf_identifier (ht : table ∈ Table.contexts) (hw : ∀ g ∈ w, g.Placed) (name : Option String) :
    ((∃ t, tokensOf table w name = .ok [t] ∧ t.kind = .identifier) ↔ Identifier (spelling w)) ∧
    (∀ t rest, tokenOf table w name = .ok (some t, rest) → t.kind = .identifier →
      ∃ n, LongestPrefix Identifier (spelling w) n ∧ t = ⟨w.take n, .identifier, []⟩ ∧ rest = w.drop n) ∧
    (∀ n, Identifier ((spelling w).take n) → (∀ l : Literal, ¬ l.Opens (spelling w)) →
      ∃ t rest, tokenOf table w name = .ok (some t, rest) ∧ t.kind = .identifier) := by
  have hs := Table.sound_of_mem ht
  have hreads := Table.reads_identifier ht
  refine ⟨tokensOf_kind_iff hs hreads hw name, fun _ _ => longest_of_tokenOf hs hreads hw, fun n hid hl => ?_⟩
  cases hcs : spelling w with
  | nil =>
    rw [hcs, List.take_nil] at hid
    exact absurd hid not_identifier_nil
  | cons c cs =>
    rw [hcs] at hid hl
    cases n with
    | zero => exact absurd hid not_identifier_nil
    | succ n =>
      have hk := Table.kind_of_startsIdentifier ht (hid.starts (List.take_prefix n cs)) hl
      exact ⟨_, _, (tokenOf_munch hs hw name hcs).2, hk⟩

end

/-- An identifier with a universal character name in it, alone and before one that breaks off. -/
theorem tokenOf_identifier_broken :
    Table.directive ∈ Table.contexts ∧ (∀ text, ∀ g ∈ Glyph.inscribe none .origin text, g.Placed) ∧
    Identifier (spelling (Glyph.inscribe none .origin "a\\u00e9b".toList)) ∧
    (∃ t, tokensOf .directive (Glyph.inscribe none .origin "a\\u00e9b".toList) none = .ok [t] ∧
      t.kind = .identifier) ∧
    (∀ l : Literal, ¬ l.Opens (spelling (Glyph.inscribe none .origin "a\\u00e9b\\u12".toList))) ∧
    ∃ t, t.kind = .identifier ∧ t = ⟨(Glyph.inscribe none .origin "a\\u00e9b\\u12".toList).take 8, .identifier, []⟩ ∧
      tokenOf .directive (Glyph.inscribe none .origin "a\\u00e9b\\u12".toList) none =
        .ok (some t, (Glyph.inscribe none .origin "a\\u00e9b\\u12".toList).drop 8) := by
  have ht : Table.directive ∈ Table.contexts := by simp [Table.contexts]
  have hplaced (text : List Char) : ∀ g ∈ Glyph.inscribe none .origin text, g.Placed :=
    fun _ => Glyph.placed_of_mem_inscribe
  have hname : UniversalName ['\\', 'u', '0', '0', 'e', '9'] := .short rfl (by simp [hexadecimals])
  have hid : Identifier (spelling (Glyph.inscribe none .origin "a\\u00e9b".toList)) := by
    rw [Glyph.spelling_inscribe]
    exact .char rfl (.name hname (.char rfl .nil))
  have hl (l : Literal) : ¬ l.Opens (spelling (Glyph.inscribe none .origin "a\\u00e9b\\u12".toList)) := by
    rw [Literal.Opens]
    cases l <;> decide
  have hread := tokenOf_identifier ht (hplaced "a\\u00e9b\\u12".toList) none
  obtain ⟨t, rest, htoken, hk⟩ := hread.2.2 8 hid hl
  obtain ⟨n, hn, rfl, rfl⟩ := hread.2.1 t rest htoken hk
  obtain rfl : n = 8 := hn.unique (longestPrefix_identifier (.inl rfl))
  exact ⟨ht, hplaced, hid, (tokenOf_identifier ht (hplaced _) none).1.2 hid, hl, _, hk, rfl, htoken⟩

end Replay

end Pretoken
