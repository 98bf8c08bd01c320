import Pretoken.Proofs.Fitting
import Pretoken.Proofs.Kinds

/-!
# How far a token reaches

What a table makes of a text depends on its characters only, and can be said without a scanner: the kind of the
first token, how many characters it takes, and which pairs of them are digraphs.

* `Text.reach`: how far a reader goes that decides character by character; `Text.runLength`, `Text.upTo`,
  `Text.literalLength` and others are such readers.
* `Text.identifierLength`: how far an identifier goes, which may look ahead.
* `Munch`, `Routine.munch`, `Action.munch`, **`Table.munch`**: what comes of the first token.
* `Rule.sound`, `Action.sound`, `Table.sound`: where a routine gives characters back, the table agrees with what is
  left.
* **`Table.munch_take`**: a token does not depend on what follows it.
* `Table.newline_notMem`: only comments hold line feeds after their first character.
-/

namespace Pretoken

namespace Text

/-! ## Readers -/

/-- What a reader decides about a character. -/
inductive Verdict (σ : Type) where
  /-- The character is not taken, and nothing after it. -/
  | before
  /-- The character is the last that is taken. -/
  | after
  /-- The character is taken, and the reader goes on in the state `s`. -/
  | on (s : σ)

section Reach

variable {σ : Type} (step : σ → Char → Verdict σ)

/-- How many characters a reader takes. -/
def reach : σ → List Char → Nat
  | _, [] => 0
  | s, c :: cs => match step s c with
    | .before => 0
    | .after => 1
    | .on s => reach s cs + 1

/-- A reader that is cut short takes what is there. -/
theorem reach_take (s : σ) (cs : List Char) (k : Nat) : reach step s (cs.take k) = min (reach step s cs) k := by
  induction cs generalizing s k with
  | nil => rw [List.take_nil, reach, Nat.zero_min]
  | cons c cs ih =>
    cases k with
    | zero => exact (Nat.min_zero _).symm
    | succ k =>
      rw [List.take_succ_cons, reach, reach]
      cases step s c with
      | before => exact (Nat.zero_min _).symm
      | after => simp
      | on s => simp only [ih, Nat.add_min_add_right]

variable {step} in
/-- What stops a reader wherever it comes is not among what is taken. -/
theorem not_mem_reach {x : Char} (h : ∀ s, step s x = .before) (s : σ) (cs : List Char) :
    x ∉ cs.take (reach step s cs) := by
  induction cs generalizing s with
  | nil => simp
  | cons c cs ih =>
    unfold reach
    have hne {v : Verdict σ} (hv : step s c = v) (hb : v ≠ .before) : x ≠ c := by
      rintro rfl
      exact hb (hv.symm.trans (h s))
    cases hv : step s c with
    | before => simp
    | after => simpa using hne hv nofun
    | on s' => simpa using ⟨hne hv nofun, ih s'⟩

theorem reach_le_length (s : σ) (cs : List Char) : reach step s cs ≤ cs.length := by
  have h := reach_take step s cs cs.length
  rw [List.take_length] at h
  omega

end Reach

/-- How many characters of the class `p` come first. -/
def runLength (p : Char → Bool) : List Char → Nat :=
  reach (fun _ c => if p c then .on () else .before) ()

/-- How many characters of the class `p` come first, counted up to `n`. -/
def upTo (p : Char → Bool) (n : Nat) : List Char → Nat :=
  reach (fun n c => if 0 < n ∧ p c then .on (n - 1) else .before) n

/-- After the opening of a comment: up to and including its closing, a slash that follows a star. -/
def commentLength : (star : Bool) → List Char → Nat :=
  reach fun star c => if star = true ∧ c = '/' then .after else .on (c == '*')

/-- After the opening of a header name: up to and including `closing`, but no line feed. -/
def headerLength (closing : Char) : List Char → Nat :=
  reach (fun _ c => if c = '\n' then .before else if c = closing then .after else .on ()) ()

/-- After the opening quote of a literal: up to and including the closing one, but no line feed. What is `escaped`
by a backslash does not close the literal. -/
def literalLength (quote : Char) : (escaped : Bool) → List Char → Nat :=
  reach fun escaped c =>
    if c = '\n' then .before
    else if c = quote ∧ escaped = false then .after
    else .on (c == '\\' && !escaped)

/-- How many characters go on with a number; a sign does if it is `signed`, after the letter of an exponent. -/
def numberLength [Alphabet] : (signed : Bool) → List Char → Nat :=
  reach fun signed c =>
    if isIdentContinue c || c == '.' || (signed && (c == '+' || c == '-')) then .on (isExponent c) else .before

/-- After `<` or `>`: perhaps the same again, perhaps an equals sign. -/
def shiftLength (c : Char) (cs : List Char) : Nat :=
  upTo (· == c) 1 cs + upTo (· == '=') 1 (cs.drop (upTo (· == c) 1 cs))

theorem upTo_zero (p : Char → Bool) (cs : List Char) : upTo p 0 cs = 0 := by
  cases cs <;> simp [upTo, reach]

theorem upTo_succ_cons (p : Char → Bool) (n : Nat) (c : Char) (cs : List Char) :
    upTo p (n + 1) (c :: cs) = if p c then upTo p n cs + 1 else 0 := by
  cases hp : p c <;> simp [upTo, reach, hp]

theorem upTo_le (p : Char → Bool) (n : Nat) (cs : List Char) : upTo p n cs ≤ n := by
  induction n generalizing cs with
  | zero => exact Nat.le_of_eq (upTo_zero p cs)
  | succ n ih =>
    cases cs with
    | nil => exact Nat.zero_le _
    | cons c cs =>
      rw [upTo_succ_cons]
      split
      · exact Nat.succ_le_succ (ih cs)
      · exact Nat.zero_le _

theorem upTo_take (p : Char → Bool) (n : Nat) (cs : List Char) (k : Nat) :
    upTo p n (cs.take k) = min (upTo p n cs) k := reach_take _ _ _ _

/-! ## Identifiers -/

/-- The digits that a universal character name has after this letter. -/
def universalDigits? : Char → Option Nat
  | 'u' => some 4
  | 'U' => some 8
  | _ => none

/-- Whether the rest of a universal character name follows a backslash. -/
def startsUniversal : List Char → Bool
  | [] => false
  | c :: cs => (universalDigits? c).any fun n => upTo isHex n cs == n

/-- How many characters go on with an identifier. The letter and the digits of a universal character name count like
any others. -/
def identifierLength [Alphabet] : List Char → Nat
  | [] => 0
  | c :: cs => if isIdentContinue c || (c == '\\' && startsUniversal cs) then identifierLength cs + 1 else 0

theorem isIdentContinue_of_isHex [Alphabet] {c : Char} (h : isHex c = true) : isIdentContinue c = true := by
  have hc : c.toNat < 128 ∧ (isLetter c || isDigit c) = true := by
    simp only [isHex, isDigit, isLetter, Bool.or_eq_true, Bool.and_eq_true, decide_eq_true_eq, Char.le_def,
      UInt32.le_iff_toNat_le, Char.toNat, Char.reduceVal, UInt32.reduceToNat] at h ⊢
    omega
  rw [isIdentContinue, isAscii, if_pos (by simpa using hc.1), Bool.or_assoc, hc.2, Bool.or_true]

theorem universalDigits?_eq {c : Char} {n : Nat} (h : universalDigits? c = some n) :
    c = 'u' ∧ n = 4 ∨ c = 'U' ∧ n = 8 := by
  unfold universalDigits? at h
  split at h
  · exact .inl ⟨rfl, (Option.some.inj h).symm⟩
  · exact .inr ⟨rfl, (Option.some.inj h).symm⟩
  · cases h

/-- Characters of an identifier lengthen it. -/
theorem identifierLength_upTo [Alphabet] {p : Char → Bool} (hp : ∀ c, p c = true → isIdentContinue c = true) (n : Nat)
    (cs : List Char) :
    identifierLength cs = upTo p n cs + identifierLength (cs.drop (upTo p n cs)) := by
  induction n generalizing cs with
  | zero => rw [upTo_zero, List.drop_zero, Nat.zero_add]
  | succ n ih =>
    cases cs with
    | nil => rfl
    | cons c cs =>
      rw [upTo_succ_cons]
      split
      · next h =>
        rw [identifierLength, hp c h, Bool.true_or, if_pos rfl, List.drop_succ_cons, ih cs]
        omega
      · rw [List.drop_zero, Nat.zero_add]

theorem isIdentContinue_of_universal [Alphabet] {c : Char} {n : Nat} (h : universalDigits? c = some n) :
    isIdentContinue c = true := by
  rcases universalDigits?_eq h with ⟨rfl, -⟩ | ⟨rfl, -⟩ <;> rfl

theorem startsUniversal_iff {cs : List Char} : startsUniversal cs = true ↔
    ∃ c ds n, cs = c :: ds ∧ universalDigits? c = some n ∧ upTo isHex n ds = n := by
  cases cs with
  | nil => simp [startsUniversal]
  | cons c cs =>
    simp only [startsUniversal, Option.any_eq_true, beq_iff_eq]
    constructor
    · rintro ⟨n, hn, hcs⟩
      exact ⟨c, cs, n, rfl, hn, hcs⟩
    · rintro ⟨_, _, n, h, hn, hds⟩
      obtain ⟨rfl, rfl⟩ := List.cons.inj h
      exact ⟨n, hn, hds⟩

/-- A universal character name is cut short, or it is there. -/
theorem startsUniversal_of_take {cs : List Char} {k : Nat} (h : startsUniversal (cs.take k) = true) :
    startsUniversal cs = true := by
  obtain ⟨c, ds, n, hcs, hn, hds⟩ := startsUniversal_iff.1 h
  cases cs with
  | nil => cases (List.take_nil.symm.trans hcs)
  | cons d es =>
    cases k with
    | zero => cases hcs
    | succ k =>
      obtain ⟨rfl, rfl⟩ := List.cons.inj hcs
      rw [upTo_take] at hds
      have hle := upTo_le isHex n es
      exact startsUniversal_iff.2 ⟨d, es, n, rfl, hn, by omega⟩

theorem startsUniversal_take [Alphabet] {cs : List Char} {k : Nat} (h : startsUniversal cs = true)
    (hk : identifierLength cs ≤ k) : startsUniversal (cs.take k) = true := by
  obtain ⟨c, ds, n, rfl, hn, hds⟩ := startsUniversal_iff.1 h
  rw [identifierLength, isIdentContinue_of_universal hn, Bool.true_or, if_pos rfl,
    identifierLength_upTo (fun _ => isIdentContinue_of_isHex) n, hds] at hk
  obtain ⟨k, rfl⟩ := Nat.exists_eq_add_of_le' (Nat.le_of_add_left_le hk)
  refine startsUniversal_iff.2 ⟨c, ds.take k, n, rfl, hn, ?_⟩
  rw [upTo_take, hds]
  omega

/-! ## Cutting off what follows -/

/-- The length does not depend on what comes after it. -/
def Stable (len : List Char → Nat) : Prop := ∀ cs k, len cs ≤ k → len (cs.take k) = len cs

theorem stable_reach {σ : Type} (step : σ → Char → Verdict σ) (s : σ) : Stable (reach step s) :=
  fun cs k h => by rw [reach_take, Nat.min_eq_left h]

theorem stable_shiftLength (c : Char) : Stable (shiftLength c) := by
  intro cs k h
  unfold shiftLength at h ⊢
  rw [upTo_take, Nat.min_eq_left (Nat.le_trans (Nat.le_add_right _ _) h), List.drop_take, upTo_take,
    Nat.min_eq_left (Nat.le_sub_of_add_le' h)]

theorem stable_identifierLength [Alphabet] : Stable identifierLength := by
  intro cs k h
  induction cs generalizing k with
  | nil => rw [List.take_nil]
  | cons c cs ih =>
    rw [identifierLength] at h
    cases k with
    | zero =>
      split at h
      · omega
      · next hc => rw [List.take_zero, identifierLength, identifierLength, if_neg hc]
    | succ k =>
      have hu (hid : identifierLength cs ≤ k) : startsUniversal (cs.take k) = startsUniversal cs := by
        rw [Bool.eq_iff_iff]
        exact ⟨startsUniversal_of_take, fun hs => startsUniversal_take hs hid⟩
      rw [List.take_succ_cons, identifierLength, identifierLength]
      split at h
      · next hc => rw [hu (by omega), if_pos hc, if_pos hc, ih k (by omega)]
      · next hc =>
        rw [if_neg hc, if_neg]
        intro hc'
        refine hc ?_
        simp only [Bool.or_eq_true, Bool.and_eq_true] at hc' ⊢
        exact hc'.imp_right fun hb => ⟨hb.1, startsUniversal_of_take hb.2⟩

theorem Stable.at {len : List Char → Nat} (h : Stable len) {cs : List Char} {n m : Nat}
    (hm : n + len (cs.drop n) ≤ m) : len ((cs.take m).drop n) = len (cs.drop n) := by
  rw [List.drop_take]
  exact h _ _ (by omega)

/-! ## Line feeds -/

theorem isIdentContinue_lineFeed [Alphabet] : isIdentContinue '\n' = false := rfl

theorem newline_notMem_identifier [Alphabet] (cs : List Char) : '\n' ∉ cs.take (identifierLength cs) := by
  induction cs with
  | nil => simp
  | cons c cs ih =>
    rw [identifierLength]
    split
    · next hc =>
      have hne : '\n' ≠ c := by
        rintro rfl
        rw [isIdentContinue_lineFeed] at hc
        cases hc
      simpa using ⟨hne, ih⟩
    · simp

/-- A text of two parts without line feeds has none. -/
theorem newline_notMem_take {cs : List Char} {n k : Nat} (h : '\n' ∉ cs.take n) (h' : '\n' ∉ (cs.drop n).take k) :
    '\n' ∉ cs.take (n + k) := by
  rw [List.take_add]
  simpa using ⟨h, h'⟩

end Text

/-! ## What comes of a token -/

/-- What comes of reading a token. -/
structure Munch where
  /-- The kind of the token. -/
  kind : TokenKind
  /-- How many characters the token takes. -/
  length : Nat
  /-- The digraphs that the characters are, if they are digraphs. -/
  pairs : List Digraph
deriving DecidableEq, Repr

namespace Munch

/-- Glyphs as digraphs, two for each. -/
def pairUp : List Digraph → List Glyph → List Glyph
  | d :: ds, g :: h :: gs => .merged d.primary [g, h] :: pairUp ds gs
  | _, _ => []

/-- The glyphs of the token that is read from the glyphs `w`. -/
def glyphs (m : Munch) (w : List Glyph) : List Glyph :=
  if m.pairs = [] then w.take m.length else pairUp m.pairs w

end Munch

open Text

section Tables

variable [Alphabet]

/-- What comes of a routine after the first `n` characters of a text. -/
def Routine.munch (cs : List Char) (n : Nat) : Routine → Munch
  | blanks => ⟨.delimiter, n + runLength isBlank (cs.drop n), []⟩
  | directiveBlanks => ⟨.delimiter, n + runLength isDirectiveBlank (cs.drop n), []⟩
  | blockComment => ⟨.comment, n + commentLength false (cs.drop n), []⟩
  | lineComment => ⟨.comment, n + runLength (· != '\n') (cs.drop n), []⟩
  | literal quote kind => ⟨kind, n + literalLength quote false (cs.drop n), []⟩
  | headerName closing kind => ⟨kind, n + headerLength closing (cs.drop n), []⟩
  | identifier => ⟨.identifier, n + identifierLength (cs.drop n), []⟩
  | universalName digits =>
    if upTo isHex digits (cs.drop n) = digits then ⟨.identifier, n + identifierLength (cs.drop n), []⟩
    else ⟨.unknown, n - 1, []⟩
  | number => ⟨.number, n + numberLength ((cs.take n).getLast?.any isExponent) (cs.drop n), []⟩
  | ellipsis => if cs[n]? = some '.' then ⟨.punctuator, n + 1, []⟩ else ⟨.operator, n - 1, []⟩
  | digraph d => ⟨.punctuator, n, [d]⟩
  | sharpDigraph kind =>
    if cs[n]? = some '%' ∧ cs[n + 1]? = some ':' then ⟨kind, n + 2, [.doubleSharp, .doubleSharp]⟩
    else ⟨kind, n, [.sharp]⟩
  | shift c => ⟨.operator, n + shiftLength c (cs.drop n), []⟩

/-- What comes of a rule after the first `n` characters of a text. -/
def Rule.munch (cs : List Char) (n : Nat) : Rule → Munch
  | fixed kind => ⟨kind, n, []⟩
  | routine r => r.munch cs n

mutual

/-- What comes of an action after the first `n` characters of a text. -/
def Action.munch (cs : List Char) (n : Nat) : Action → Munch
  | .finish rule => rule.munch cs n
  | .nested cases otherwise => Case.munch cs n otherwise cases

/-- What comes of the first case that contains the character after the first `n`. -/
def Case.munch (cs : List Char) (n : Nat) (otherwise : Rule) : List Case → Munch
  | [] => otherwise.munch cs n
  | ⟨chars, action⟩ :: cases =>
    if cs[n]?.any chars.contains then action.munch cs (n + 1) else Case.munch cs n otherwise cases

end

/-- **What a table makes of a text** that starts with the character `lead`. -/
def Table.munch (table : Table) (lead : Char) (cs : List Char) : Munch :=
  match table.lookup lead with
  | some action => action.munch cs 1
  | none => if isIdentStart lead then Routine.identifier.munch cs 1 else ⟨.unknown, 1, []⟩

theorem Table.munch_of_lookup {table : Table} {c : Char} {action : Action} (h : table.lookup c = some action)
    (cs : List Char) : table.munch c cs = action.munch cs 1 := by
  rw [munch, h]

end Tables

/-! ## Tables that agree with themselves -/

/-- A rule after `n` characters, where `otherwise` would have been followed one character before. If it gives that
character back, it leaves what would have come of `otherwise`; digraphs are all that there is; no digit closes a
literal; and nothing is shifted over a line feed. -/
def Rule.sound (n : Nat) (otherwise : Option Rule) : Rule → Bool
  | routine (.universalName _) => decide (2 ≤ n) && decide (otherwise = some (.fixed .unknown))
  | routine .ellipsis => decide (2 ≤ n) && decide (otherwise = some (.fixed .operator))
  | routine (.digraph _) | routine (.sharpDigraph _) => decide (n = 2)
  | routine (.literal quote _) => !isHex quote
  | routine (.shift c) => decide (c ≠ '\n')
  | _ => true

mutual

/-- All rules of an action after `n` characters are sound. -/
def Action.sound (n : Nat) (otherwise : Option Rule) : Action → Bool
  | .finish rule => rule.sound n otherwise
  | .nested cases other => other.sound n none && Case.allSound (n + 1) other cases

/-- All cases are sound, and none of them contains a line feed. -/
def Case.allSound (n : Nat) (otherwise : Rule) : List Case → Bool
  | [] => true
  | ⟨chars, action⟩ :: cases =>
    !chars.contains '\n' && action.sound n (some otherwise) && Case.allSound n otherwise cases

end

/-- All rules of a table are sound. -/
def Table.sound (table : Table) : Bool :=
  table.groups.all fun cases => cases.all fun case => case.action.sound 1 none

theorem Table.sound_text : text.sound = true := by decide

theorem Table.sound_directive : directive.sound = true := by decide

theorem Table.sound_includeOperand : includeOperand.sound = true := by decide

theorem Table.sound_of_lookup {table : Table} {c : Char} {action : Action} (h : table.sound = true)
    (ha : table.lookup c = some action) : action.sound 1 none = true := by
  obtain ⟨case, hcase, rfl⟩ := exists_of_lookup h ha
  exact hcase

section

variable [Alphabet] {cs : List Char} {n m : Nat}

variable (cs) in
/-- A rule that does not go back to the character before leaves it to `otherwise`. -/
theorem Rule.munch_cases {rule : Rule} {o : Option Rule} (h : rule.sound n o = true) :
    n ≤ (rule.munch cs n).length ∨ ∃ other, o = some other ∧ ∀ ds, other.munch ds (n - 1) = rule.munch cs n := by
  cases rule with
  | fixed kind => exact .inl (Nat.le_refl n)
  | routine r =>
    cases r with
    | universalName digits =>
      have hs : 2 ≤ n ∧ o = some (.fixed .unknown) := by simpa [sound] using h
      simp only [munch, Routine.munch]
      split
      · exact .inl (Nat.le_add_right _ _)
      · exact .inr ⟨_, hs.2, fun _ => rfl⟩
    | ellipsis =>
      have hs : 2 ≤ n ∧ o = some (.fixed .operator) := by simpa [sound] using h
      simp only [munch, Routine.munch]
      split
      · exact .inl (Nat.le_succ n)
      · exact .inr ⟨_, hs.2, fun _ => rfl⟩
    | digraph d => exact .inl (Nat.le_refl n)
    | sharpDigraph kind =>
      simp only [munch, Routine.munch]
      split
      · exact .inl (Nat.le_add_right _ _)
      · exact .inl (Nat.le_refl n)
    | _ => exact .inl (Nat.le_add_right _ _)

theorem Rule.le_munch {rule : Rule} (h : rule.sound n none = true) : n ≤ (rule.munch cs n).length := by
  obtain hle | ⟨_, ho, -⟩ := rule.munch_cases cs h
  · exact hle
  · cases ho

variable (cs) in
mutual

theorem Action.munch_cases : (action : Action) → (n : Nat) → (o : Option Rule) → action.sound n o = true →
    n ≤ (action.munch cs n).length ∨ ∃ other, o = some other ∧ ∀ ds, other.munch ds (n - 1) = action.munch cs n
  | .finish rule, n, o, h => by
    rw [Action.sound] at h
    exact rule.munch_cases cs h
  | .nested cases other, n, o, h => by
    rw [Action.sound, Bool.and_eq_true] at h
    rw [Action.munch]
    exact .inl (Case.le_munch cases other n h.2 h.1)

theorem Case.le_munch : (cases : List Case) → (other : Rule) → (n : Nat) →
    Case.allSound (n + 1) other cases = true → other.sound n none = true →
    n ≤ (Case.munch cs n other cases).length
  | [], other, n, _, ho => by
    rw [Case.munch]
    exact Rule.le_munch ho
  | ⟨chars, action⟩ :: cases, other, n, h, ho => by
    simp only [Case.allSound, Bool.and_eq_true] at h
    rw [Case.munch]
    split
    · obtain hle | ⟨_, ⟨⟩, heq⟩ := Action.munch_cases action (n + 1) (some other) h.1.2
      · omega
      · rw [← heq cs]
        exact Rule.le_munch ho
    · exact Case.le_munch cases other n h.2 ho

end

/-- A token takes at least its first character. -/
theorem Table.le_munch {table : Table} {lead : Char} (hs : table.sound = true) : 1 ≤ (table.munch lead cs).length := by
  unfold munch
  split
  · next action ha =>
    obtain hle | ⟨_, ho, -⟩ := action.munch_cases cs 1 none (sound_of_lookup hs ha)
    · exact hle
    · cases ho
  · split
    · exact Nat.le_add_right _ _
    · exact Nat.le_refl 1

/-! ## What follows a token -/

theorem Routine.munch_take (r : Routine) (hn : n ≤ m) (h : (r.munch cs n).length ≤ m) :
    r.munch (cs.take m) n = r.munch cs n := by
  have run {len : List Char → Nat} (hlen : Stable len) (kind : TokenKind) (h : n + len (cs.drop n) ≤ m) :
      (⟨kind, n + len ((cs.take m).drop n), []⟩ : Munch) = ⟨kind, n + len (cs.drop n), []⟩ := by
    rw [hlen.at h]
  have hget {k : Nat} {x : Char} (hk : (cs.take m)[k]? = some x) : cs[k]? = some x := by
    rw [List.getElem?_take] at hk
    split at hk
    · exact hk
    · cases hk
  cases r with
  | blanks => exact run (stable_reach _ _) _ h
  | directiveBlanks => exact run (stable_reach _ _) _ h
  | blockComment => exact run (stable_reach _ _) _ h
  | lineComment => exact run (stable_reach _ _) _ h
  | literal quote kind => exact run (stable_reach _ _) _ h
  | headerName closing kind => exact run (stable_reach _ _) _ h
  | identifier => exact run stable_identifierLength _ h
  | universalName digits =>
    have hmin : upTo isHex digits ((cs.take m).drop n) = min (upTo isHex digits (cs.drop n)) (m - n) := by
      rw [List.drop_take, upTo_take]
    have hle := upTo_le isHex digits (cs.drop n)
    simp only [munch] at h ⊢
    split at h
    · next hd =>
      have hid := identifierLength_upTo (p := isHex) (fun _ => isIdentContinue_of_isHex) digits (cs.drop n)
      rw [if_pos hd, if_pos (by simp only at h; omega)]
      exact run stable_identifierLength _ h
    · next hd => rw [if_neg hd, if_neg (by omega)]
  | number =>
    have htake : (cs.take m).take n = cs.take n := by rw [List.take_take, Nat.min_eq_left hn]
    rw [munch, htake]
    exact run (stable_reach _ _) _ h
  | ellipsis =>
    simp only [munch] at h ⊢
    split at h
    · next hd => rw [if_pos hd, if_pos (by rw [List.getElem?_take_of_lt h, hd])]
    · next hd => rw [if_neg hd, if_neg fun hk => hd (hget hk)]
  | digraph d => rfl
  | sharpDigraph kind =>
    simp only [munch] at h ⊢
    split at h
    · next hd =>
      rw [if_pos hd, if_pos]
      rw [List.getElem?_take_of_lt (by simp only at h; omega), List.getElem?_take_of_lt h]
      exact hd
    · next hd => rw [if_neg hd, if_neg fun hk => hd ⟨hget hk.1, hget hk.2⟩]
  | shift c => exact run (stable_shiftLength c) _ h

theorem Rule.munch_take (rule : Rule) (hn : n ≤ m) (h : (rule.munch cs n).length ≤ m) :
    rule.munch (cs.take m) n = rule.munch cs n := by
  cases rule with
  | fixed kind => rfl
  | routine r => exact r.munch_take hn h

/-- Without a character to choose among them no case is chosen. -/
theorem Case.munch_of_none {cases : List Case} {other : Rule} (h : cs[n]? = none) :
    Case.munch cs n other cases = other.munch cs n := by
  induction cases with
  | nil => rw [Case.munch]
  | cons case cases ih =>
    obtain ⟨chars, action⟩ := case
    rw [Case.munch, h, Option.any_none, if_neg Bool.false_ne_true, ih]

/-- What comes of some cases if the text is cut off before the character that chooses among them. -/
theorem Case.munch_end {cases : List Case} {other : Rule} (hs : Case.allSound (n + 1) other cases = true)
    (h : (Case.munch cs n other cases).length ≤ n) :
    Case.munch (cs.take n) n other cases = Case.munch cs n other cases := by
  rw [Case.munch_of_none (List.getElem?_eq_none (List.length_take_le n cs))]
  induction cases with
  | nil =>
    rw [Case.munch] at h ⊢
    exact other.munch_take (Nat.le_refl n) h
  | cons case cases ih =>
    obtain ⟨chars, action⟩ := case
    simp only [Case.allSound, Bool.and_eq_true] at hs
    rw [Case.munch] at h ⊢
    split at h
    · next hc =>
      rw [if_pos hc]
      -- the case takes its character, or it gives it back and leaves the token to `other`
      obtain hle | ⟨_, ⟨⟩, heq⟩ := action.munch_cases cs (n + 1) (some other) hs.1.2
      · omega
      · exact heq _
    · next hc =>
      rw [if_neg hc]
      exact ih hs.2 h

mutual

theorem Action.munch_take : (action : Action) → (n : Nat) → (o : Option Rule) → action.sound n o = true → n ≤ m →
    (action.munch cs n).length ≤ m → action.munch (cs.take m) n = action.munch cs n
  | .finish rule, n, o, _, hn, h => by
    rw [Action.munch] at h ⊢
    exact rule.munch_take hn h
  | .nested cases other, n, o, hs, hn, h => by
    rw [Action.sound, Bool.and_eq_true] at hs
    rw [Action.munch] at h
    rw [Action.munch, Action.munch]
    -- the character that chooses among the cases may be the first that is cut off
    rcases Nat.lt_or_eq_of_le hn with hlt | rfl
    · exact Case.munch_take cases other n hs.2 hlt h
    · exact Case.munch_end hs.2 h

theorem Case.munch_take : (cases : List Case) → (other : Rule) → (n : Nat) →
    Case.allSound (n + 1) other cases = true → n < m → (Case.munch cs n other cases).length ≤ m →
    Case.munch (cs.take m) n other cases = Case.munch cs n other cases
  | [], other, n, _, hn, h => by
    rw [Case.munch] at h
    rw [Case.munch, Case.munch]
    exact other.munch_take (Nat.le_of_lt hn) h
  | ⟨chars, action⟩ :: cases, other, n, hs, hn, h => by
    simp only [Case.allSound, Bool.and_eq_true] at hs
    rw [Case.munch] at h
    rw [Case.munch, Case.munch, List.getElem?_take_of_lt hn]
    split at h
    · next hc =>
      rw [if_pos hc, if_pos hc]
      exact Action.munch_take action (n + 1) (some other) hs.1.2 hn h
    · next hc =>
      rw [if_neg hc, if_neg hc]
      exact Case.munch_take cases other n hs.2 hn h

end

/-- **A token does not depend on what follows it.** -/
theorem Table.munch_take {table : Table} {lead : Char} (hs : table.sound = true) (hm : 1 ≤ m)
    (h : (table.munch lead cs).length ≤ m) : table.munch lead (cs.take m) = table.munch lead cs := by
  unfold munch at h ⊢
  split at h
  · next action ha => exact action.munch_take 1 none (sound_of_lookup hs ha) hm h
  · split at h
    · next hi =>
      rw [if_pos hi, if_pos hi]
      exact Routine.identifier.munch_take hm h
    · next hi => rw [if_neg hi, if_neg hi]

/-- A dot is what is left of an ellipsis that breaks off, and on its own it is the same. -/
example : Table.text.munch '.' ['.', '.', 'a'] = ⟨.operator, 1, []⟩ ∧
    Table.text.munch '.' ['.'] = ⟨.operator, 1, []⟩ := ⟨rfl, rfl⟩

/-! ## The rule that completes a token -/

variable (cs) in
mutual

/-- What comes of an action comes of one of its rules. No line feed is taken on the way to it. -/
theorem Action.exists_rule : (action : Action) → (n : Nat) → (o : Option Rule) →
    action.sound n o = true → ∃ (rule : Rule) (k : Nat) (o' : Option Rule), rule.sound k o' = true ∧
      (∀ f : Rule → List TokenKind, f rule ⊆ action.gather f) ∧ ('\n' ∉ cs.take n → '\n' ∉ cs.take k) ∧
      action.munch cs n = rule.munch cs k
  | .finish rule, n, o, hs => by
    rw [Action.sound] at hs
    exact ⟨rule, n, o, hs, fun f => by rw [Action.gather]; exact List.Subset.refl _, id, by rw [Action.munch]⟩
  | .nested cases other, n, o, hs => by
    rw [Action.sound, Bool.and_eq_true] at hs
    simp only [Action.munch, Action.gather]
    exact Case.exists_rule cases other n hs.2 hs.1

theorem Case.exists_rule : (cases : List Case) → (other : Rule) → (n : Nat) →
    Case.allSound (n + 1) other cases = true → other.sound n none = true →
    ∃ (rule : Rule) (k : Nat) (o' : Option Rule), rule.sound k o' = true ∧
      (∀ f : Rule → List TokenKind, f rule ⊆ f other ++ Case.gather f cases) ∧
      ('\n' ∉ cs.take n → '\n' ∉ cs.take k) ∧ Case.munch cs n other cases = rule.munch cs k
  | [], other, n, _, ho => by
    exact ⟨other, n, none, ho, fun _ => List.subset_append_left _ _, id, by rw [Case.munch]⟩
  | ⟨chars, action⟩ :: cases, other, n, hs, ho => by
    simp only [Case.allSound, Bool.and_eq_true, Bool.not_eq_true'] at hs
    rw [Case.munch]
    simp only [Case.gather]
    split
    · next hin =>
      obtain ⟨c, hc, hin⟩ := (Option.any_eq_true _ _).1 hin
      obtain ⟨rule, k, o', hr, hf, hfree, heq⟩ := Action.exists_rule action (n + 1) (some other) hs.1.2
      refine ⟨rule, k, o', hr, ?_, fun hn => hfree ?_, heq⟩
      · exact fun f => List.subset_append_of_subset_right _ (List.subset_append_of_subset_left _ (hf f))
      · have hne : '\n' ≠ c := by
          rintro rfl
          rw [hs.1.1] at hin
          cases hin
        rw [List.take_add_one, hc]
        simpa using ⟨hn, hne⟩
    · obtain ⟨rule, k, o', hr, hf, hfree, heq⟩ := Case.exists_rule cases other n hs.2 ho
      refine ⟨rule, k, o', hr, fun f => List.Subset.trans (hf f) ?_, hfree, heq⟩
      exact List.append_subset.2 ⟨List.subset_append_left _ _,
        List.subset_append_of_subset_right _ (List.subset_append_right _ _)⟩

end

/-- If there is no line feed among the first `n` characters, a token other than a comment takes none. -/
theorem Rule.newline_notMem {rule : Rule} {o : Option Rule} (hs : rule.sound n o = true) (h : '\n' ∉ cs.take n)
    (hk : (rule.munch cs n).kind ≠ .comment) : '\n' ∉ cs.take (rule.munch cs n).length := by
  have hback : '\n' ∉ cs.take (n - 1) := fun hm => h (List.take_subset_take_left cs (Nat.sub_le n 1) hm)
  cases rule with
  | fixed kind => exact h
  | routine r =>
    rw [munch] at hk ⊢
    cases r with
    | blanks => exact newline_notMem_take h (not_mem_reach (fun _ => rfl) _ _)
    | directiveBlanks => exact newline_notMem_take h (not_mem_reach (fun _ => rfl) _ _)
    | blockComment => exact absurd rfl hk
    | lineComment => exact absurd rfl hk
    | literal quote kind => exact newline_notMem_take h (not_mem_reach (fun _ => rfl) _ _)
    | headerName closing kind => exact newline_notMem_take h (not_mem_reach (fun _ => rfl) _ _)
    | identifier => exact newline_notMem_take h (newline_notMem_identifier _)
    | universalName digits =>
      simp only [Routine.munch]
      split
      · exact newline_notMem_take h (newline_notMem_identifier _)
      · exact hback
    | number => exact newline_notMem_take h (not_mem_reach (fun signed => by cases signed <;> rfl) _ _)
    | ellipsis =>
      simp only [Routine.munch]
      split
      · next hd =>
        rw [List.take_add_one, hd]
        simpa using h
      · exact hback
    | digraph d => exact h
    | sharpDigraph kind =>
      simp only [Routine.munch]
      split
      · next hd =>
        rw [List.take_add_one, List.take_add_one, hd.1, hd.2]
        simpa using h
      · exact h
    | shift c =>
      have hc : c ≠ '\n' := by simpa [sound] using hs
      have hp : ('\n' == c) = false := beq_eq_false_iff_ne.2 hc.symm
      refine newline_notMem_take h (newline_notMem_take ?_ ?_)
      · exact not_mem_reach (fun _ => by simp [hp]) _ _
      · exact not_mem_reach (fun _ => by simp) _ _

/-- The kind of a token is one that its rule can give. -/
theorem Rule.kind_munch (rule : Rule) : (rule.munch cs n).kind ∈ rule.kinds := by
  cases rule with
  | fixed kind => exact List.mem_cons_self
  | routine r =>
    cases r with
    | universalName digits =>
      simp only [munch, Routine.munch]
      split
      · exact List.mem_cons_self
      · exact List.mem_cons_of_mem _ List.mem_cons_self
    | ellipsis =>
      simp only [munch, Routine.munch]
      split
      · exact List.mem_cons_self
      · exact List.mem_cons_of_mem _ List.mem_cons_self
    | sharpDigraph kind =>
      simp only [munch, Routine.munch]
      split <;> exact List.mem_cons_self
    | _ => exact List.mem_cons_self

/-- The digraphs of a token are all that it takes: one, or two number signs. -/
def Munch.Paired (m : Munch) : Prop :=
  m.pairs = [] ∨ m.length = 2 * m.pairs.length ∧ ((∃ d, m.pairs = [d]) ∨ m.pairs = [.doubleSharp, .doubleSharp])

theorem Rule.munch_paired {rule : Rule} {o : Option Rule} (h : rule.sound n o = true) :
    (rule.munch cs n).Paired ∧ ((rule.munch cs n).pairs ≠ [] → (rule.munch cs n).kind ∈ rule.pairKinds) := by
  cases rule with
  | fixed kind => exact ⟨.inl rfl, fun hp => absurd rfl hp⟩
  | routine r =>
    cases r with
    | universalName digits =>
      simp only [munch, Routine.munch]
      split <;> exact ⟨.inl rfl, fun hp => absurd rfl hp⟩
    | ellipsis =>
      simp only [munch, Routine.munch]
      split <;> exact ⟨.inl rfl, fun hp => absurd rfl hp⟩
    | digraph d =>
      obtain rfl : n = 2 := by simpa [sound] using h
      exact ⟨.inr ⟨rfl, .inl ⟨d, rfl⟩⟩, fun _ => List.mem_cons_self⟩
    | sharpDigraph kind =>
      obtain rfl : n = 2 := by simpa [sound] using h
      simp only [munch, Routine.munch]
      split
      · exact ⟨.inr ⟨rfl, .inr rfl⟩, fun _ => List.mem_cons_self⟩
      · exact ⟨.inr ⟨rfl, .inl ⟨.sharp, rfl⟩⟩, fun _ => List.mem_cons_self⟩
    | _ => exact ⟨.inl rfl, fun hp => absurd rfl hp⟩

namespace Table

variable {table : Table} {lead : Char}

variable (cs lead) in
theorem exists_rule (hs : table.sound = true) :
    ∃ (rule : Rule) (k : Nat) (o : Option Rule), rule.sound k o = true ∧ (∀ f : Rule → List TokenKind,
      f rule ⊆ f (.routine .identifier) ++ (f (.fixed .unknown) ++ table.gather f)) ∧
      ('\n' ∉ cs.take 1 → '\n' ∉ cs.take k) ∧ table.munch lead cs = rule.munch cs k := by
  unfold munch
  split
  · next action ha =>
    obtain ⟨rule, k, o, hr, hp, hfree, heq⟩ := action.exists_rule cs 1 none (sound_of_lookup hs ha)
    refine ⟨rule, k, o, hr, fun f => ?_, hfree, heq⟩
    exact List.subset_append_of_subset_right _ (List.subset_append_of_subset_right _
      (List.Subset.trans (hp f) (gather_of_lookup ha)))
  · split
    · exact ⟨.routine .identifier, 1, none, rfl, fun _ => List.subset_append_left _ _, id, rfl⟩
    · exact ⟨.fixed .unknown, 1, none, rfl, fun _ => List.subset_append_of_subset_right _
        (List.subset_append_left _ _), id, rfl⟩

theorem newline_notMem (hs : table.sound = true) (hlead : '\n' ∉ cs.take 1)
    (hk : (table.munch lead cs).kind ≠ .comment) : '\n' ∉ cs.take (table.munch lead cs).length := by
  obtain ⟨rule, k, o, hr, -, hfree, heq⟩ := exists_rule cs lead hs
  rw [heq] at hk ⊢
  exact Rule.newline_notMem hr (hfree hlead) hk

variable (cs lead) in
/-- The kind of a token is one that its table can give, or it is an identifier or unknown. -/
theorem kind_munch (hs : table.sound = true) :
    (table.munch lead cs).kind ∈ .identifier :: .unknown :: table.gather Rule.kinds := by
  obtain ⟨rule, k, o, -, hf, -, heq⟩ := exists_rule cs lead hs
  rw [heq]
  exact hf Rule.kinds rule.kind_munch

variable (cs lead) in
theorem munch_paired (hs : table.sound = true) : (table.munch lead cs).Paired ∧
    ((table.munch lead cs).pairs ≠ [] → (table.munch lead cs).kind ∈ table.gather Rule.pairKinds) := by
  obtain ⟨rule, k, o, hr, hp, -, heq⟩ := exists_rule cs lead hs
  rw [heq]
  exact ⟨(Rule.munch_paired hr).1, fun hne => hp _ ((Rule.munch_paired hr).2 hne)⟩

end Table

end

end Pretoken
