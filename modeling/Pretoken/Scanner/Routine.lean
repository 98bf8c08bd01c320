import Pretoken.Scanner.Basic
import Pretoken.Table.Basic

/-!
# Reading the rest of a token

The routines that a table names. Each goes on after the characters that selected it, which are in
the draft already. None of them costs more than one credit.

* `blockComment`, `headerName`, `literal`: up to a closing mark.
* `identifier`, `universalName`, `number`: runs of characters with some structure.
* `Routine.run`, `Rule.run`: any of them, and the kind of the token that comes of it.
-/

namespace Pretoken.Scanner

variable {σ : Type} [Source σ]

/-- The credits of a turn cover those of its result. -/
theorem credit_le_toll (t : Turn Unit Unit) : Turn.credit (fun _ => 0) t ≤ t.toll := by
  cases t <;> simp [Turn.credit]

/-! ## Up to a closing mark -/

/-- A glyph of a comment; the closing follows a star. -/
def commentTurn (_ : Unit) : ScanM (Scanner σ) (Turn Unit Unit) := do
  let g ← next
  if g.isEof then return .done ()
  else
    keep g
    if g.is '*' then
      if ← accept (· == '/') then return .done () else return .again ()
    else return .again ()

theorem commentTurn_within (u : Unit) :
    Within measure 0 (commentTurn u : ScanM (Scanner σ) (Turn Unit Unit)) Turn.toll :=
  next_within.bind fun g => by
    split
    · exact .pure _ (Nat.zero_le _)
    · next h =>
      rw [show g.weight = 1 by simp [Glyph.weight, h]]
      refine (keep_within g 1).bind fun _ => ?_
      split
      · refine ((accept_within _).frame 1).bind fun b => ?_
        split
        · exact .pure _ (Nat.zero_le _)
        · exact .pure _ (Nat.le_add_left _ _)
      · exact .pure _ (Nat.le_refl _)

/-- Everything up to and including the closing of the comment, or else up to the end. -/
def blockComment : ScanM (Scanner σ) Unit :=
  loop measure commentTurn (fun u => (commentTurn_within u).draws) ()

theorem blockComment_within :
    Within measure 0 (blockComment : ScanM (Scanner σ) Unit) fun _ => 0 :=
  .loop (fun u => (commentTurn_within u).weaken 0 (Nat.le_refl _) credit_le_toll) ()

/-- A glyph of a header name, which ends before a line feed or with `closing`. -/
def headerTurn (closing : Char) (_ : Unit) : ScanM (Scanner σ) (Turn Unit Unit) := do
  let g ← next
  match g.value? with
  | none => return .done ()
  | some c =>
    if c = '\n' then
      putBack g
      return .done ()
    else
      keep g
      if c = closing then return .done () else return .again ()

theorem headerTurn_within (closing : Char) (u : Unit) :
    Within measure 0 (headerTurn closing u : ScanM (Scanner σ) (Turn Unit Unit)) Turn.toll :=
  next_within.bind fun g => by
    split
    · exact .pure _ (Nat.zero_le _)
    · next c hc =>
      split
      · exact (putBack_within g).bind fun _ => .pure _ (Nat.le_refl _)
      · rw [Glyph.weight_of_value? hc]
        refine (keep_within g 1).bind fun _ => ?_
        split
        · exact .pure _ (Nat.zero_le _)
        · exact .pure _ (Nat.le_refl _)

/-- Everything up to and including `closing`; a line feed is not part of it. -/
def headerName (closing : Char) : ScanM (Scanner σ) Unit :=
  loop measure (headerTurn closing) (fun u => (headerTurn_within closing u).draws) ()

theorem headerName_within (closing : Char) :
    Within measure 0 (headerName closing : ScanM (Scanner σ) Unit) fun _ => 0 :=
  .loop (fun u => (headerTurn_within closing u).weaken 0 (Nat.le_refl _) credit_le_toll) ()

/-- What a backslash in a literal takes along: the next character, unless it is a line feed, and the
digits that belong to it. -/
def escape : ScanM (Scanner σ) Unit := do
  let g ← next
  match g.value? with
  | none => return
  | some c =>
    if c = '\n' then putBack g
    else
      keep g
      if isOctal c then discard (acceptUpTo isOctal 2)
      else if c = 'x' then acceptWhile isHex
      else if c = 'u' then discard (acceptUpTo isHex 4)
      else if c = 'U' then discard (acceptUpTo isHex 8)

theorem escape_within : Within measure 0 (escape : ScanM (Scanner σ) Unit) fun _ => 0 :=
  next_within.bind fun g => by
    have upTo (p : Char → Bool) (n : Nat) :
        Within measure 1 (discard (acceptUpTo p n) : ScanM (Scanner σ) Unit) fun _ => 0 :=
      .map ((acceptUpTo_within p n).weaken 0 (Nat.zero_le _) fun _ => Nat.zero_le _)
    split
    · exact .pure _ (Nat.zero_le _)
    · next c hc =>
      split
      · exact putBack_within g
      · rw [Glyph.weight_of_value? hc]
        refine (keep_within g 1).bind fun _ => ?_
        split
        · exact upTo _ _
        · split
          · exact (acceptWhile_within _).weaken 0 (Nat.zero_le _) fun _ => Nat.zero_le _
          · split
            · exact upTo _ _
            · split
              · exact upTo _ _
              · exact .pure _ (Nat.zero_le _)

/-- A glyph of a literal, which ends before a line feed or with the closing quote. -/
def literalTurn (quote : Char) (_ : Unit) : ScanM (Scanner σ) (Turn Unit Unit) := do
  let g ← next
  match g.value? with
  | none => return .done ()
  | some c =>
    if c = '\n' then
      putBack g
      return .done ()
    else
      keep g
      if c = quote then return .done ()
      else
        if c = '\\' then escape
        return .again ()

theorem literalTurn_within (quote : Char) (u : Unit) :
    Within measure 0 (literalTurn quote u : ScanM (Scanner σ) (Turn Unit Unit)) Turn.toll :=
  next_within.bind fun g => by
    split
    · exact .pure _ (Nat.zero_le _)
    · next c hc =>
      split
      · exact (putBack_within g).bind fun _ => .pure _ (Nat.le_refl _)
      · rw [Glyph.weight_of_value? hc]
        refine (keep_within g 1).bind fun _ => ?_
        split
        · exact .pure _ (Nat.zero_le _)
        · split
          · exact (escape_within.frame 1).bind fun _ => .pure _ (Nat.le_refl _)
          · exact .pure _ (Nat.le_refl _)

/-- Everything up to and including the closing quote; a line feed is not part of it. -/
def literal (quote : Char) : ScanM (Scanner σ) Unit :=
  loop measure (literalTurn quote) (fun u => (literalTurn_within quote u).draws) ()

theorem literal_within (quote : Char) :
    Within measure 0 (literal quote : ScanM (Scanner σ) Unit) fun _ => 0 :=
  .loop (fun u => (literalTurn_within quote u).weaken 0 (Nat.le_refl _) credit_le_toll) ()

/-! ## Identifiers and numbers -/

/-- The digits of a universal character name, after its letter. If there are too few, they and the
letter are given back, and the backslash is left. Tells whether there were enough. -/
def universalDigits (digits : Nat) : ScanM (Scanner σ) Bool := do
  let found ← acceptUpTo isHex digits
  if found = digits then return true
  else
    ScanM.emit (.incompleteName (← onSource (ScanM.view Source.location)))
    undoMany (found + 1)
    return false

theorem universalDigits_within (digits : Nat) :
    Within measure 1 (universalDigits digits : ScanM (Scanner σ) Bool) fun _ => 0 :=
  ((acceptUpTo_within _ _).frame 1).bind fun found => by
    split
    · exact .pure _ (Nat.zero_le _)
    · have hv : Within measure (found + 1)
          (onSource (ScanM.view Source.location) : ScanM (Scanner σ) Location) fun _ => found + 1 :=
        ((onSource_within (ScanM.view_within (j := 0) (k := fun _ => 0) _ fun _ => Nat.le_refl _)
          (Nat.le_refl _) fun _ => Nat.le_refl _).frame (found + 1)).weaken 0 (by omega) fun _ => by omega
      exact hv.bind fun _ => (ScanM.emit_within _).bind fun _ =>
        (undoMany_within _).bind fun _ => .pure _ (Nat.le_refl _)

/-- After a backslash in an identifier: a whole universal character name. Anything else is given
back, and the backslash is left. Tells whether there was one. -/
def universalTail : ScanM (Scanner σ) Bool := do
  let g ← next
  if g.is 'u' then
    keep g
    universalDigits 4
  else if g.is 'U' then
    keep g
    universalDigits 8
  else
    putBack g
    return false

theorem universalTail_within :
    Within measure 0 (universalTail : ScanM (Scanner σ) Bool) fun _ => 0 :=
  next_within.bind fun g => by
    split
    · next h =>
      rw [Glyph.weight_of_is h]
      exact (keep_within g 1).bind fun _ => universalDigits_within 4
    · split
      · next h =>
        rw [Glyph.weight_of_is h]
        exact (keep_within g 1).bind fun _ => universalDigits_within 8
      · exact (putBack_within g).bind fun _ => .pure _ (Nat.le_refl _)

/-- Whether the last character kept opens an exponent. -/
def afterExponent (s : Scanner σ) : Bool := (s.draft.last?.bind Glyph.value?).any isExponent

section Words

variable [Alphabet]

/-- A character of an identifier, or a universal character name. -/
def identifierTurn (_ : Unit) : ScanM (Scanner σ) (Turn Unit Unit) := do
  let g ← next
  match g.value? with
  | none => return .done ()
  | some c =>
    if isIdentContinue c then
      keep g
      return .again ()
    else if c = '\\' then
      keep g
      if ← universalTail then return .again ()
      else
        undo
        return .done ()
    else
      putBack g
      return .done ()

theorem identifierTurn_within (u : Unit) :
    Within measure 0 (identifierTurn u : ScanM (Scanner σ) (Turn Unit Unit)) Turn.toll :=
  next_within.bind fun g => by
    split
    · exact .pure _ (Nat.zero_le _)
    · next c hc =>
      split
      · rw [Glyph.weight_of_value? hc]
        exact (keep_within g 1).bind fun _ => .pure _ (Nat.le_refl _)
      · split
        · rw [Glyph.weight_of_value? hc]
          refine (keep_within g 1).bind fun _ => (universalTail_within.frame 1).bind fun b => ?_
          split
          · exact .pure _ (Nat.le_refl _)
          · exact undo_within.bind fun _ => .pure _ (Nat.le_refl _)
        · exact (putBack_within g).bind fun _ => .pure _ (Nat.le_refl _)

/-- The rest of an identifier. -/
def identifier : ScanM (Scanner σ) Unit :=
  loop measure identifierTurn (fun u => (identifierTurn_within u).draws) ()

theorem identifier_within : Within measure 0 (identifier : ScanM (Scanner σ) Unit) fun _ => 0 :=
  .loop (fun u => (identifierTurn_within u).weaken 0 (Nat.le_refl _) credit_le_toll) ()

/-- A character of a number: one of an identifier, a dot, or a sign in an exponent. -/
def numberTurn (_ : Unit) : ScanM (Scanner σ) (Turn Unit Unit) := do
  let signed ← ScanM.view afterExponent
  let g ← next
  match g.value? with
  | none => return .done ()
  | some c =>
    if isIdentContinue c || c == '.' || (signed && (c == '+' || c == '-')) then
      keep g
      return .again ()
    else
      putBack g
      return .done ()

theorem numberTurn_within (u : Unit) :
    Within measure 0 (numberTurn u : ScanM (Scanner σ) (Turn Unit Unit)) Turn.toll :=
  (ScanM.view_within (k := fun _ => 0) _ fun _ => Nat.le_refl _).bind fun signed =>
    next_within.bind fun g => by
      split
      · exact .pure _ (Nat.zero_le _)
      · next c hc =>
        split
        · rw [Glyph.weight_of_value? hc]
          exact (keep_within g 1).bind fun _ => .pure _ (Nat.le_refl _)
        · exact (putBack_within g).bind fun _ => .pure _ (Nat.le_refl _)

/-- The rest of a number. -/
def number : ScanM (Scanner σ) Unit :=
  loop measure numberTurn (fun u => (numberTurn_within u).draws) ()

theorem number_within : Within measure 0 (number : ScanM (Scanner σ) Unit) fun _ => 0 :=
  .loop (fun u => (numberTurn_within u).weaken 0 (Nat.le_refl _) credit_le_toll) ()

end Words

/-! ## Punctuators -/

/-- Two glyphs become one, so a draft does not grow. -/
theorem size_collapse {d d' : Draft} {c : Char} (h : d.collapse c = .ok d') : d'.size ≤ d.size := by
  unfold Draft.collapse at h
  split at h
  · next hd =>
    cases hm : Glyph.merge c _ <;> rw [hm] at h <;> cases h
    simp [Draft.size, hd]
  · cases h

theorem size_collapseTwo {d d' : Draft} {a b : Char} (h : d.collapseTwo a b = .ok d') :
    d'.size + 2 ≤ d.size := by
  unfold Draft.collapseTwo at h
  split at h
  · next hd =>
    cases hm : Glyph.merge a _ <;> rw [hm] at h
    · cases h
    · cases hn : Glyph.merge b _ <;> rw [hn] at h <;> cases h
      simp [Draft.size, hd]
  · cases h

/-- After the digraph of a number sign: the same digraph again, or whatever follows is given back. -/
def sharpDigraph : ScanM (Scanner σ) Unit := do
  let percent ← next
  if percent.is '%' then
    let colon ← next
    if colon.is ':' then
      keep percent
      keep colon
      revise (·.collapseTwo Digraph.doubleSharp.primary Digraph.doubleSharp.primary)
    else
      putBack colon
      putBack percent
      revise (·.collapse Digraph.sharp.primary)
  else
    revise (·.collapse Digraph.sharp.primary)
    putBack percent

theorem sharpDigraph_within :
    Within measure 0 (sharpDigraph : ScanM (Scanner σ) Unit) fun _ => 0 :=
  next_within.bind fun percent => by
    split
    · next h₁ =>
      have hp := putBack_within (σ := σ) percent
      rw [Glyph.weight_of_is h₁] at hp ⊢
      refine (next_within.frame 2).bind fun colon => ?_
      split
      · next h₂ =>
        rw [Glyph.weight_of_is h₂]
        exact (keep_within percent 3).bind fun _ => (keep_within colon 2).bind fun _ =>
          (revise_within 2 fun d d' h => by have := size_collapseTwo h; omega).weaken 0
            (Nat.le_refl _) fun _ => Nat.zero_le _
      · exact ((putBack_within colon).frame 2).bind fun _ => hp.bind fun _ =>
          revise_within 0 fun d d' h => size_collapse h
    · exact (revise_within _ fun d d' h => size_collapse h).bind fun _ => putBack_within percent

end Pretoken.Scanner

namespace Pretoken

/-! ## Any of them -/

section Run

variable {σ : Type} [Source σ] [Alphabet]

open Scanner

/-- Read the rest of a token; the result is its kind. -/
def Routine.run : Routine → ScanM (Scanner σ) TokenKind
  | blanks => do acceptWhile isBlank; return .delimiter
  | directiveBlanks => do acceptWhile isDirectiveBlank; return .delimiter
  | blockComment => do Scanner.blockComment; return .comment
  | lineComment => do acceptWhile (· != '\n'); return .comment
  | literal quote kind => do Scanner.literal quote; return kind
  | headerName closing kind => do Scanner.headerName closing; return kind
  | identifier => do Scanner.identifier; return .identifier
  | universalName digits => do
    if ← universalDigits digits then
      Scanner.identifier
      return .identifier
    else return .unknown
  | number => do Scanner.number; return .number
  | ellipsis => do
    if ← accept (· == '.') then return .punctuator
    else
      undo
      return .operator
  | digraph d => do revise (·.collapse d.primary); return .punctuator
  | sharpDigraph kind => do Scanner.sharpDigraph; return kind
  | shift c => do
    discard (accept (· == c))
    discard (accept (· == '='))
    return .operator

/-- Complete a token; the result is its kind. -/
def Rule.run : Rule → ScanM (Scanner σ) TokenKind
  | fixed kind => return kind
  | routine r => r.run

theorem Routine.run_within (r : Routine) :
    Within measure 1 (r.run : ScanM (Scanner σ) TokenKind) fun _ => 0 := by
  have free {m : ScanM (Scanner σ) Unit} {k : TokenKind} (h : Within measure 0 m fun _ => 0) :
      Within measure 1 (do m; return k : ScanM (Scanner σ) TokenKind) fun _ => 0 :=
    (h.weaken (l := fun _ => 0) 0 (Nat.zero_le _) fun _ => Nat.le_refl _).bind fun _ =>
      .pure _ (Nat.le_refl _)
  have test (p : Char → Bool) :
      Within measure 0 (discard (accept p) : ScanM (Scanner σ) Unit) fun _ => 0 :=
    .map ((accept_within p).weaken 0 (Nat.le_refl _) fun _ => Nat.zero_le _)
  cases r with
  | blanks => exact free (acceptWhile_within _)
  | directiveBlanks => exact free (acceptWhile_within _)
  | blockComment => exact free blockComment_within
  | lineComment => exact free (acceptWhile_within _)
  | literal quote kind => exact free (literal_within quote)
  | headerName closing kind => exact free (headerName_within closing)
  | identifier => exact free identifier_within
  | universalName digits =>
    refine (universalDigits_within digits).bind fun b => ?_
    split
    · exact identifier_within.bind fun _ => .pure _ (Nat.le_refl _)
    · exact .pure _ (Nat.le_refl _)
  | number => exact free number_within
  | ellipsis =>
    refine ((accept_within _).frame 1).bind fun b => ?_
    split
    · exact .pure _ (Nat.zero_le _)
    · next h =>
      simp only [Bool.not_eq_true] at h
      subst h
      exact undo_within.bind fun _ => .pure _ (Nat.le_refl _)
  | digraph d => exact free (revise_within 0 fun d d' h => size_collapse h)
  | sharpDigraph kind => exact free sharpDigraph_within
  | shift c =>
    exact ((test _).weaken (l := fun _ => 0) 0 (Nat.zero_le _) fun _ => Nat.le_refl _).bind fun _ =>
      (test _).bind fun _ => .pure _ (Nat.le_refl _)

theorem Rule.run_within (r : Rule) :
    Within measure 1 (r.run : ScanM (Scanner σ) TokenKind) fun _ => 0 := by
  cases r with
  | fixed kind => exact .pure _ (Nat.zero_le _)
  | routine r => exact r.run_within

end Run

end Pretoken
