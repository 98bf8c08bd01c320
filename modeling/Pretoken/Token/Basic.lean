import Pretoken.Glyph
import Pretoken.Token.Kind

/-!
# Tokens

A token is made of glyphs and has a kind; the token of a directive has the rest of its line as
children.

* `Token.make`: a token of some glyphs, of which there has to be one, and none an end.
* `Token.value`, `Token.raw`: the text that a token shows, and the text that it goes back to.
* `Token.span`: from the start of a token to its end, its children included.
-/

namespace Pretoken

/-- A preprocessing token. -/
structure Token where
  /-- The glyphs of the token itself. -/
  glyphs : List Glyph
  /-- What the token is. -/
  kind : TokenKind
  /-- The tokens that belong to a directive. -/
  children : List Token
deriving Repr

instance : Inhabited Token := ⟨⟨[], .unknown, []⟩⟩

namespace Token

/-- A token of the given glyphs, without children. -/
def make (gs : List Glyph) (kind : TokenKind) : Except Violation Token :=
  if gs.isEmpty then .error .emptyToken
  else if gs.any Glyph.isEof then .error .endInToken
  else .ok ⟨gs, kind, []⟩

/-! ## Equality -/

mutual

/-- Tokens are equal if their glyphs, kinds and children are. -/
def decEq : (t u : Token) → Decidable (t = u)
  | ⟨gs, k, cs⟩, ⟨gs', k', cs'⟩ =>
    have := decEqList cs cs'
    decidable_of_iff (gs = gs' ∧ k = k' ∧ cs = cs') (by simp)

/-- Lists of tokens are equal if their members are. -/
def decEqList : (ts us : List Token) → Decidable (ts = us)
  | [], [] => isTrue rfl
  | t :: ts, u :: us =>
    have := decEq t u
    have := decEqList ts us
    decidable_of_iff (t = u ∧ ts = us) (by simp)
  | [], _ :: _ | _ :: _, [] => isFalse nofun

end

instance : DecidableEq Token := decEq

/-! ## Text and place -/

/-- The text that the token shows, without that of its children. -/
def value (t : Token) : String := String.ofList (Glyph.spelling t.glyphs)

/-- The file that the token comes from. -/
def file? (t : Token) : Option String := Glyph.firstFile? t.glyphs

mutual

/-- The place where the text of a token stops: that of its last child, if it has children. -/
def stop? : Token → Option Location
  | ⟨gs, _, cs⟩ => lastStop? (Glyph.lastStop? gs) cs

/-- The place where the text of the last of some tokens stops, or `before` if there are none. -/
def lastStop? (before : Option Location) : List Token → Option Location
  | [] => before
  | t :: ts => lastStop? t.stop? ts

end

/-- From the start of the token to its stop. -/
def span (t : Token) : Span :=
  match Glyph.firstStart? t.glyphs, t.stop? with
  | some a, some b => ⟨a, b⟩
  | _, _ => .point .origin

mutual

/-- The plain glyphs behind a token and its children, in the order of the text. -/
def leaves : Token → List Glyph
  | ⟨gs, _, cs⟩ => Glyph.leavesAll gs ++ leavesAll cs

/-- The plain glyphs behind some tokens, in the order of the text. -/
def leavesAll : List Token → List Glyph
  | [] => []
  | t :: ts => t.leaves ++ leavesAll ts

end

/-- The text behind the token and its children. -/
def raw (t : Token) : String := String.ofList (Glyph.spelling t.leaves)

/-- A token with its value and its span. -/
def head (t : Token) : String := t.kind.name ++ "(" ++ Text.quoteString t.value ++ ")@" ++ t.span.text

mutual

/-- A token with its value, its span and its children: `DIRECTIVE("#")@L1:1--2[…]`. -/
def describe : Token → String
  | ⟨gs, k, []⟩ => head ⟨gs, k, []⟩
  | ⟨gs, k, c :: cs⟩ =>
    head ⟨gs, k, c :: cs⟩ ++ "[" ++ ", ".intercalate (c.describe :: describeEach cs) ++ "]"

/-- Some tokens, each with its value, its span and its children. -/
def describeEach : List Token → List String
  | [] => []
  | t :: ts => t.describe :: describeEach ts

end

/-! ## Basic facts -/

theorem leavesAll_eq_flatMap (ts : List Token) : leavesAll ts = ts.flatMap leaves := by
  induction ts with
  | nil => rfl
  | cons t ts ih => simp [leavesAll, ih]

@[simp] theorem leavesAll_append (ts us : List Token) :
    leavesAll (ts ++ us) = leavesAll ts ++ leavesAll us := by
  simp [leavesAll_eq_flatMap]

theorem make_eq_ok_iff {gs : List Glyph} {k : TokenKind} {t : Token} :
    make gs k = .ok t ↔ gs ≠ [] ∧ (∀ g ∈ gs, g.isEof = false) ∧ t = ⟨gs, k, []⟩ := by
  unfold make
  split
  · next h => simp [List.isEmpty_iff.1 h]
  · next h =>
    have hne : gs ≠ [] := fun he => h (by simp [he])
    split
    · next ha =>
      obtain ⟨g, hg, he⟩ := List.any_eq_true.1 ha
      simp only [reduceCtorEq, false_iff]
      rintro ⟨_, hall, _⟩
      rw [hall g hg] at he
      cases he
    · next ha =>
      simp only [List.any_eq_true, not_exists, not_and, Bool.not_eq_true] at ha
      simp only [Except.ok.injEq]
      constructor
      · rintro rfl; exact ⟨hne, ha, rfl⟩
      · rintro ⟨_, _, rfl⟩; rfl

end Token

end Pretoken
