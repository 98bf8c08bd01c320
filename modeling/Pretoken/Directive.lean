import Pretoken.Scanner.Token
import Pretoken.Token.Reserved
import Pretoken.Words

/-!
# Directives

A number sign at the start of a line begins a directive, which goes on to the end of the line. A
`DirectiveLine` is a scanner together with the tokens of the line so far.

* `DirectiveLine.readBody`: the tokens up to the end of the line.
* `DirectiveLine.readInclude`: the operand of an `include` directive, and the rest of the line.
* **`DirectiveLine.readDirective`**: the name of a directive, and the rest of the line.
-/

namespace Pretoken

/-- A line that is being read, and the tokens read so far. -/
structure DirectiveLine (σ : Type) where
  /-- Where the tokens come from. -/
  scanner : Scanner σ
  /-- The tokens so far, the last one first. -/
  newestFirst : List Token

namespace DirectiveLine

/-- A line of which nothing has been read. -/
def ofScanner {σ : Type} (scanner : Scanner σ) : DirectiveLine σ := ⟨scanner, []⟩

/-- The tokens so far, in order. -/
def children {σ : Type} (l : DirectiveLine σ) : List Token := l.newestFirst.reverse

variable {σ : Type} [Source σ] [Alphabet]

/-- Add a token to the line. -/
def push (t : Token) : ScanM (DirectiveLine σ) Unit :=
  ScanM.change fun l => { l with newestFirst := t :: l.newestFirst }

/-- Read the next token, which is not yet part of the line. -/
def readToken (reserved : List String) (table : Table) : ScanM (DirectiveLine σ) (Option Token) :=
  ScanM.onState scanner (fun s l => { l with scanner := s })
    (Option.map (Token.reserve reserved) <$> Scanner.readToken table)

/-! ## Progress -/

/-- The measure of the scanner. -/
def size (l : DirectiveLine σ) : Nat := l.scanner.size

/-- The measure of a line, whatever the log. -/
abbrev measure : Logged (DirectiveLine σ) → Nat := Logged.size size

omit [Alphabet] in
theorem push_within (t : Token) (j : Nat) :
    Within measure j (push t : ScanM (DirectiveLine σ) Unit) fun _ => j := by
  rintro s u s' ⟨⟩
  exact Nat.le_refl _

theorem readToken_within (reserved : List String) (table : Table) :
    Within measure 0 (readToken reserved table : ScanM (DirectiveLine σ) (Option Token))
      fun t => (Turn.ofOption t).toll :=
  ScanM.onState_within (ν := Scanner.size) 1 (fun l s => by simp only [size]; omega)
    (.map ((Scanner.readToken_within table).weaken
      (l := fun t => (Turn.ofOption (t.map (Token.reserve reserved))).toll) 0 (Nat.le_refl _)
      fun t => by cases t <;> exact Nat.le_refl _)) (Nat.le_refl _)
    fun _ => Nat.le_of_eq (Nat.one_mul _).symm

/-! ## Reading a line -/

/-- Read a token; white space goes to the line, anything else is the result. -/
def skipTurn (reserved : List String) (table : Table) (_ : Unit) :
    ScanM (DirectiveLine σ) (Turn Unit (Option Token)) := do
  match ← readToken reserved table with
  | none => return .done none
  | some t =>
    if t.kind.isSpace then
      push t
      return .again ()
    else return .done (some t)

theorem skipTurn_within (reserved : List String) (table : Table) (u : Unit) :
    Within measure 0 (skipTurn reserved table u : ScanM (DirectiveLine σ) _) Turn.toll :=
  (readToken_within reserved table).bind fun t => by
    match t with
    | none => exact .pure _ (Nat.le_refl _)
    | some t =>
      dsimp only
      split
      · exact (push_within t _).bind fun _ => .pure _ (Nat.le_refl _)
      · exact .pure _ (Nat.zero_le _)

/-- Add white space to the line, up to the first other token, which is the result. -/
def skipSpace (reserved : List String) (table : Table) : ScanM (DirectiveLine σ) (Option Token) :=
  loop measure (skipTurn reserved table) (fun u => (skipTurn_within reserved table u).draws) ()

/-- Add a token to the line; the end of the line is the last. -/
def bodyTurn (reserved : List String) (_ : Unit) : ScanM (DirectiveLine σ) (Turn Unit Unit) := do
  match ← readToken reserved .directive with
  | none =>
    ScanM.emit .directiveTruncated
    return .done ()
  | some t =>
    push t
    if t.kind = .directiveEnd then return .done () else return .again ()

theorem bodyTurn_within (reserved : List String) (u : Unit) :
    Within measure 0 (bodyTurn reserved u : ScanM (DirectiveLine σ) (Turn Unit Unit)) Turn.toll :=
  (readToken_within reserved .directive).bind fun t => by
    match t with
    | none => exact (ScanM.emit_within _).bind fun _ => .pure _ (Nat.le_refl _)
    | some t =>
      refine (push_within t _).bind fun _ => ?_
      split
      · exact .pure _ (Nat.zero_le _)
      · exact .pure _ (Nat.le_refl _)

/-- Add tokens to the line up to and including its end. -/
def readBody (reserved : List String) : ScanM (DirectiveLine σ) Unit :=
  loop measure (bodyTurn reserved) (fun u => (bodyTurn_within reserved u).draws) ()

/-- Add the operand of an `include` directive, which may be a header name, and the rest of the
line. -/
def readInclude (reserved : List String) : ScanM (DirectiveLine σ) Unit := do
  match ← skipSpace reserved .includeOperand with
  | none => ScanM.emit .includeTruncated
  | some operand =>
    push operand
    if operand.kind = .directiveEnd then return else readBody reserved

/-- Add the name of a directive and the rest of the line. A token in the place of the name that is
no known name keeps its kind. -/
def readDirective (reserved : List String) : ScanM (DirectiveLine σ) Unit := do
  match ← skipSpace reserved .directive with
  | none => ScanM.emit .directiveTruncated
  | some name =>
    if name.kind = .directiveEnd then push name
    else if isDirectiveName name.value then
      ScanM.emit (.directive name.value name.span)
      push (name.withKind .directiveName)
      if name.value = "include" then readInclude reserved else readBody reserved
    else
      ScanM.emit (.unknownDirective name.value name.span)
      push name
      readBody reserved

theorem skipSpace_within (reserved : List String) (table : Table) :
    Within measure 0 (skipSpace reserved table : ScanM (DirectiveLine σ) (Option Token)) fun _ => 0 :=
  .loop (fun u => (skipTurn_within reserved table u).weaken 0 (Nat.le_refl _) fun t => by
    cases t <;> simp [Turn.credit]) ()

theorem readBody_within (reserved : List String) :
    Within measure 0 (readBody reserved : ScanM (DirectiveLine σ) Unit) fun _ => 0 :=
  .loop (fun u => (bodyTurn_within reserved u).weaken 0 (Nat.le_refl _) Scanner.credit_le_toll) ()

theorem readInclude_within (reserved : List String) :
    Within measure 0 (readInclude reserved : ScanM (DirectiveLine σ) Unit) fun _ => 0 :=
  (skipSpace_within reserved _).bind fun t => by
    match t with
    | none => exact ScanM.emit_within _
    | some operand =>
      refine (push_within operand 0).bind fun _ => ?_
      split
      · exact .pure _ (Nat.le_refl _)
      · exact readBody_within reserved

theorem readDirective_within (reserved : List String) :
    Within measure 0 (readDirective reserved : ScanM (DirectiveLine σ) Unit) fun _ => 0 :=
  (skipSpace_within reserved _).bind fun t => by
    match t with
    | none => exact ScanM.emit_within _
    | some name =>
      dsimp only
      split
      · exact push_within name 0
      · split
        · refine (ScanM.emit_within _).bind fun _ => (push_within _ 0).bind fun _ => ?_
          split
          · exact readInclude_within reserved
          · exact readBody_within reserved
        · exact (ScanM.emit_within _).bind fun _ => (push_within _ 0).bind fun _ =>
            readBody_within reserved

end DirectiveLine

/-! ## The children of a directive -/

/-- The tokens of a directive, from after its number sign to the end of the line. -/
def Scanner.readDirective {σ : Type} [Source σ] [Alphabet] (reserved : List String) :
    ScanM (Scanner σ) (List Token) :=
  ScanM.onState DirectiveLine.ofScanner (fun l _ => l.scanner) do
    DirectiveLine.readDirective reserved
    ScanM.view DirectiveLine.children

theorem Scanner.readDirective_within {σ : Type} [Source σ] [Alphabet] (reserved : List String) :
    Within measure 0 (readDirective reserved : ScanM (Scanner σ) (List Token)) fun _ => 0 :=
  ScanM.onState_within (ν := DirectiveLine.size) 1
    (fun s l => by simp only [DirectiveLine.size, DirectiveLine.ofScanner]; omega)
    ((DirectiveLine.readDirective_within reserved).bind fun _ =>
      ScanM.view_within (k := fun _ => 0) _ fun _ => Nat.le_refl _)
    (Nat.le_refl _) fun _ => Nat.le_refl _

end Pretoken
