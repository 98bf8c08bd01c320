import Pretoken.Directive
import Pretoken.Source.Pipeline

/-!
# The lexer

A lexer splits a text into preprocessing tokens. It knows whether it stands at the start of a line,
where a number sign begins a directive, and which words are reserved.

* `Lexer.ofFile`: a lexer over a file, its trigraphs replaced and its lines spliced.
* **`Lexer.nextToken`**: the next token, or none at the end.
* `Lexer.eof?`: the end, once it has been reached.
* `Lexer.tokens`: all tokens that are still to come, and how they end.
-/

namespace Pretoken

/-- A text that is being split into tokens. -/
structure Lexer (σ : Type) where
  /-- Where the glyphs come from. -/
  source : σ
  /-- The words that are reserved. -/
  reserved : List String
  /-- Whether only white space has come since the last line feed or directive. -/
  atLineStart : Bool

namespace Lexer

/-- A lexer at the beginning of a source. -/
def ofSource {σ : Type} (source : σ) (reserved : List String) : Lexer σ := ⟨source, reserved, true⟩

/-- A lexer at the beginning of a file. -/
def ofFile (file : File) (trigraphs : Bool) (reserved : List String) : Lexer Phases :=
  ofSource (.ofFile file trigraphs) reserved

variable {σ : Type} [Source σ]

/-- Scan the source. -/
def onSource {α : Type} (m : ScanM σ α) : ScanM (Lexer σ) α :=
  ScanM.onState source (fun t l => { l with source := t }) m

/-- Scan the source with a fresh scanner. Whatever a failure leaves in its draft is lost. -/
def withScanner {α : Type} (m : ScanM (Scanner σ) α) : ScanM (Lexer σ) α :=
  ScanM.onState (fun l => .ofSource l.source) (fun s l => { l with source := s.source }) m

/-- Note whether the lexer is at the start of a line. -/
def setLineStart (b : Bool) : ScanM (Lexer σ) Unit :=
  ScanM.change fun l => { l with atLineStart := b }

/-- The token that a token of ordinary text becomes. A line feed starts a line; white space changes
nothing; a number sign at the start of a line takes the rest of the line along, and what follows is
at the start of a line again; anything else is in the middle of a line. -/
def classify [Alphabet] (t : Token) : ScanM (Lexer σ) Token := do
  if t.kind.isSpace then
    if t.kind = .delimiter ∧ t.value = "\n" then setLineStart true
    return t
  else if t.kind = .punctuator ∧ t.value = "#" ∧ (← ScanM.view atLineStart) = true then
    let children ← withScanner (Scanner.readDirective (← ScanM.view reserved))
    return (t.withKind .directive).withChildren children
  else
    setLineStart false
    return t.reserve (← ScanM.view reserved)

/-- **The next token**, or none at the end. -/
def nextToken [Alphabet] : ScanM (Lexer σ) (Option Token) := do
  match ← withScanner (Scanner.readToken .text) with
  | none => return none
  | some t => return some (← classify t)

/-- The end, if it is next. A character that is next stays. -/
def eof? : ScanM (Lexer σ) (Option Glyph) := onSource do
  let g ← Source.take
  if g.isEof then return some g
  else
    Source.giveBack g
    return none

/-- The location of the next character. -/
def location (l : Lexer σ) : Location := Source.location l.source

/-- The file that is being read. -/
def file? (l : Lexer σ) : Option String := Source.file? l.source

/-- What has not been read of the feed. -/
def feed (l : Lexer Phases) : Feed := l.source.below.below.feed

/-! ## Progress -/

/-- Every glyph counts two. -/
def size (l : Lexer σ) : Nat := 2 * Source.remaining l.source

/-- The measure of a lexer, whatever the log. -/
abbrev measure : Logged (Lexer σ) → Nat := Logged.size size

theorem withScanner_within {α : Type} {j : Nat} {k : α → Nat} {m : ScanM (Scanner σ) α}
    (h : Within Scanner.measure j m k) : Within measure j (withScanner m) k :=
  ScanM.onState_within 1
    (fun l s => by simp only [size, Scanner.size, Scanner.ofSource, Draft.size, Draft.empty,
      List.length_nil]; omega)
    h (Nat.le_of_eq (Nat.one_mul _)) fun _ => Nat.le_of_eq (Nat.one_mul _).symm

theorem setLineStart_within (b : Bool) (j : Nat) :
    Within measure j (setLineStart b : ScanM (Lexer σ) Unit) fun _ => j := by
  rintro s u s' ⟨⟩
  exact Nat.le_refl _

theorem view_within {α : Type} (f : Lexer σ → α) (j : Nat) :
    Within measure j (ScanM.view f) fun _ => j :=
  ScanM.view_within f fun _ => Nat.le_refl _

variable [Alphabet]

theorem classify_within (t : Token) (j : Nat) :
    Within measure j (classify t : ScanM (Lexer σ) Token) fun _ => j := by
  unfold classify
  split
  · split
    · exact (setLineStart_within true j).bind fun _ => .pure _ (Nat.le_refl _)
    · exact .pure _ (Nat.le_refl _)
  · refine (view_within atLineStart j).bind fun b => ?_
    split
    · exact (view_within reserved j).bind fun r =>
        ((withScanner_within (Scanner.readDirective_within r)).weaken j (by omega) fun _ =>
          by omega).bind fun _ => .pure _ (Nat.le_refl _)
    · exact (setLineStart_within false j).bind fun _ => (view_within reserved j).bind fun _ =>
        .pure _ (Nat.le_refl _)

/-- A token uses up some of the source. -/
theorem nextToken_within : Within measure 0 (nextToken : ScanM (Lexer σ) (Option Token))
    fun t => (Turn.ofOption t).toll :=
  (withScanner_within (Scanner.readToken_within .text)).bind fun t => by
    match t with
    | none => exact .pure _ (Nat.le_refl _)
    | some t => exact (classify_within t _).bind fun _ => .pure _ (Nat.le_refl _)

/-! ## Whole texts -/

/-- All tokens still to come, and the fault that ended them, if there was one. -/
def tokens : ScanM (Lexer σ) (List Token × Except Fault Unit) :=
  gatherUntil measure (Turn.ofOption <$> nextToken) (Within.draws (.map nextToken_within))

/-- All tokens still to come, unless there is a fault. -/
def readAll : ScanM (Lexer σ) (List Token) :=
  Prod.fst <$> gather measure (Turn.ofOption <$> nextToken) (Within.draws (.map nextToken_within))

end Lexer

end Pretoken
