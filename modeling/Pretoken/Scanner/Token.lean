import Pretoken.Scanner.Routine
import Pretoken.Table.Contexts

/-!
# Reading tokens

* `Action.run`: what a table says about the characters of a token, carried out.
* **`Scanner.readToken`**: the next token of a lexical context, or none at the end.
* `Scanner.readAll`: all tokens of a context up to the end.
-/

namespace Pretoken

variable {σ : Type} [Source σ] [Alphabet]

open Scanner

/-! ## Following a table -/

mutual

/-- Go on after a character as the table says; the result is the kind of the token. -/
def Action.run : Action → ScanM (Scanner σ) TokenKind
  | .finish rule => rule.run
  | .nested cases otherwise => do
    let g ← next
    Case.choose cases otherwise g

/-- Go on with the first case that contains the character of `g`; if there is none, give `g` back. -/
def Case.choose : List Case → Rule → Glyph → ScanM (Scanner σ) TokenKind
  | [], otherwise, g => do
    putBack g
    otherwise.run
  | ⟨chars, action⟩ :: cases, otherwise, g =>
    if g.value?.any chars.contains then do
      keep g
      action.run
    else Case.choose cases otherwise g

end

/-- Choosing a case is finding it. -/
theorem Case.choose_eq (cases : List Case) (otherwise : Rule) (g : Glyph) :
    (Case.choose cases otherwise g : ScanM (Scanner σ) TokenKind) =
      match g.value?.bind (find cases) with
      | some action => keep g >>= fun _ => action.run
      | none => putBack g >>= fun _ => otherwise.run := by
  induction cases with
  | nil => cases g.value? <;> rfl
  | cons case cases ih =>
    obtain ⟨chars, action⟩ := case
    unfold Case.choose
    cases hv : g.value? with
    | none => simp [ih, hv]
    | some c =>
      cases hc : chars.contains c <;> simp [find, hc, ih, hv]

mutual

theorem Action.run_within : (action : Action) →
    Within measure 1 (action.run : ScanM (Scanner σ) TokenKind) fun _ => 0
  | .finish rule => rule.run_within
  | .nested cases otherwise =>
    (next_within.frame 1).bind fun g => Case.choose_within cases otherwise g

theorem Case.choose_within : (cases : List Case) → (otherwise : Rule) → (g : Glyph) →
    Within measure (2 * g.weight + 1)
      (Case.choose cases otherwise g : ScanM (Scanner σ) TokenKind) fun _ => 0
  | [], otherwise, g => by
    unfold Case.choose
    exact ((putBack_within g).frame 1).bind fun _ => otherwise.run_within
  | ⟨chars, action⟩ :: cases, otherwise, g => by
    unfold Case.choose
    split
    · next h =>
      rw [Glyph.weight_of_any h]
      exact (keep_within g 2).bind fun _ =>
        (Action.run_within action).weaken 0 (by omega) fun _ => Nat.le_refl _
    · exact Case.choose_within cases otherwise g

end

namespace Scanner

/-! ## Tokens -/

/-- The rest of a token that starts with the character `lead`, which is in the draft: what the table
says, or else an identifier, or else nothing more. -/
def readRest (table : Table) (lead : Char) : ScanM (Scanner σ) TokenKind :=
  match table.lookup lead with
  | some action => action.run
  | none => if isIdentStart lead then Routine.identifier.run else return .unknown

/-- The token of the draft, which is empty from then on. -/
def finish (kind : TokenKind) : ScanM (Scanner σ) Token := fun s =>
  match s.state.draft.toToken kind with
  | .ok t => .ok t { s with state := { s.state with draft := .empty } }
  | .error v => .error (.violation v) s

/-- **The next token**, or none at the end of the source. -/
def readToken (table : Table) : ScanM (Scanner σ) (Option Token) := do
  let g ← next
  match g.value? with
  | none => return none
  | some lead =>
    keep g
    let kind ← readRest table lead
    return some (← finish kind)

theorem readRest_within (table : Table) (lead : Char) :
    Within measure 1 (readRest table lead : ScanM (Scanner σ) TokenKind) fun _ => 0 := by
  unfold readRest
  split
  · next action _ => exact action.run_within
  · split
    · exact Routine.identifier.run_within
    · exact .pure _ (Nat.zero_le _)

omit [Alphabet] in
/-- A token uses up a draft. -/
theorem finish_within (kind : TokenKind) :
    Within measure 0 (finish kind : ScanM (Scanner σ) Token) fun _ => 1 := by
  intro s t s' h
  unfold finish at h
  split at h
  · next ht =>
    cases h
    have hd : 0 < s.state.draft.size := by
      unfold Draft.toToken Draft.isEmpty at ht
      split at ht
      · cases ht
      · next he => exact List.length_pos_iff.2 fun h => he (by simp [h])
    simp only [Logged.size, size, Draft.empty, Draft.size, List.length_nil] at *
    omega
  · cases h

/-- A token that is read uses up some of the source. -/
theorem readToken_within (table : Table) :
    Within measure 0 (readToken table : ScanM (Scanner σ) (Option Token))
      fun t => (Turn.ofOption t).toll :=
  next_within.bind fun g => by
    split
    · exact .pure _ (Nat.zero_le _)
    · next lead hl =>
      rw [Glyph.weight_of_value? hl]
      exact (keep_within g 1).bind fun _ => (readRest_within table lead).bind fun kind =>
        (finish_within kind).bind fun t => .pure _ (Nat.le_refl _)

/-- All tokens up to the end of the source. -/
def readAll (table : Table) : ScanM (Scanner σ) (List Token) :=
  Prod.fst <$> gather measure (Turn.ofOption <$> readToken table)
    (Within.draws (.map (readToken_within table)))

end Scanner

end Pretoken
