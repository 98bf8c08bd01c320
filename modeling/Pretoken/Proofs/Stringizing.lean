import Mathlib.Data.List.DropRight
import Pretoken.Proofs.Relexing
import Pretoken.Proofs.Rereading
import Pretoken.Proofs.Unbroken

/-!
# String literals of tokens

Made a string literal, some tokens are one token again, from which their text can be told. Between its quotes stand
their words with a space between each two, and a backslash before every quote and every backslash.

* `Text.withEscapes`, `Text.withoutEscapes`: backslashes are put in front of characters, and taken away.
* `Text.literalLength_withEscapes`: only the closing quote closes the literal.
* `Token.words`, `Token.phrase`: the tokens between white space, and their text.
* `Token.Piece`, `Token.pieces`: what a literal is made of.
* `Token.glyphs_stringize`: the glyphs of a literal are those of its pieces.
* **`Token.stringize_faithful`**: what a literal shows, what it is read as, and whose its glyphs are.
-/

namespace Pretoken

open Glyph (spelling)

/-! ## Escapes -/

namespace Text

variable {cs : List Char}

/-- Some characters within a literal: a quote or a backslash has a backslash before it. -/
def withEscapes (cs : List Char) : List Char :=
  cs.flatMap fun c => if c = '\\' ∨ c = '"' then ['\\', c] else [c]

/-- Some characters of a literal: every backslash stands for the character after it. -/
def withoutEscapes : List Char → List Char
  | '\\' :: c :: cs => c :: withoutEscapes cs
  | c :: cs => c :: withoutEscapes cs
  | [] => []

theorem withoutEscapes_cons {c : Char} (hc : c ≠ '\\') (cs : List Char) :
    withoutEscapes (c :: cs) = c :: withoutEscapes cs := by
  rw [withoutEscapes]
  exact fun _ _ h => absurd h hc

theorem withEscapes_cons (c : Char) (cs : List Char) :
    withEscapes (c :: cs) = (if c = '\\' ∨ c = '"' then ['\\', c] else [c]) ++ withEscapes cs :=
  List.flatMap_cons

theorem mem_withEscapes {x : Char} (h : x ∈ withEscapes cs) : x = '\\' ∨ x ∈ cs := by
  obtain ⟨c, hc, hx⟩ := List.mem_flatMap.1 h
  split at hx
  · rcases List.mem_cons.1 hx with rfl | hx
    · exact .inl rfl
    · exact .inr (List.mem_singleton.1 hx ▸ hc)
  · exact .inr (List.mem_singleton.1 hx ▸ hc)

/-- **Escapes can be undone.** -/
theorem withoutEscapes_withEscapes (cs : List Char) : withoutEscapes (withEscapes cs) = cs := by
  induction cs with
  | nil => rfl
  | cons c cs ih =>
    rw [withEscapes_cons]
    split
    · rw [List.cons_append, List.singleton_append, withoutEscapes, ih]
    · next hc => rw [List.singleton_append, withoutEscapes_cons (fun h => hc (.inl h)), ih]

/-- **Nothing but the closing quote closes a literal.** -/
theorem literalLength_withEscapes (h : '\n' ∉ cs) :
    literalLength '"' false (withEscapes cs ++ ['"']) = (withEscapes cs).length + 1 := by
  induction cs with
  | nil => rfl
  | cons c cs ih =>
    rw [List.mem_cons, not_or] at h
    have hn : c ≠ '\n' := fun hc => h.1 hc.symm
    have ih := ih h.2
    rw [withEscapes_cons]
    split
    · next hc =>
      -- the backslash before it keeps a quote from closing the literal, and a backslash from escaping what follows
      rw [literalLength] at ih ⊢
      simp [reach, hn, ih]
    · next hc =>
      rw [not_or] at hc
      have hb : (c == '\\') = false := beq_eq_false_iff_ne.2 hc.1
      rw [literalLength] at ih ⊢
      simp [reach, hn, hb, hc.2, ih]

end Text

namespace Token

/-! ## Words -/

section Words

variable {α β : Type} {t : Token} {ts : List Token}

/-- The runs of tokens between white space. -/
def words (ts : List Token) : List (List Token) := (ts.splitOnP (·.kind.isSpace)).filter (!·.isEmpty)

/-- What `f` gives for each of some tokens but white space, with `sep` between each two words. -/
def joined (sep : List α) (f : Token → List α) (ts : List Token) : List α :=
  sep.intercalate ((words ts).map (·.flatMap f))

/-- The text of some tokens: white space at either end is dropped, and a run of it elsewhere is one space. -/
def phrase (ts : List Token) : List Char := joined [' '] (spelling ·.glyphs) ts

/-- White space divides words. -/
theorem words_append_cons (h : t.kind.isSpace = true) (ts us : List Token) :
    words (ts ++ t :: us) = words ts ++ words us := by
  rw [words, List.splitOnP_append_cons (p := (·.kind.isSpace)) ts us h, List.filter_append]
  rfl

theorem words_cons_of_space (h : t.kind.isSpace = true) : words (t :: ts) = words ts := words_append_cons h [] ts

theorem words_append_of_space (h : t.kind.isSpace = true) : words (ts ++ [t]) = words ts := by
  rw [words_append_cons h]
  exact List.append_nil _

theorem words_trimmed (ts : List Token) : words (trimmed ts) = words ts := by
  have hleft : words (ts.dropWhile (·.kind.isSpace)) = words ts := by
    induction ts with
    | nil => rfl
    | cons t ts ih =>
      rw [List.dropWhile_cons]
      split
      · next h => rw [ih, words_cons_of_space h]
      · rfl
  have hright (us : List Token) : words (us.rdropWhile (·.kind.isSpace)) = words us := by
    induction us using List.reverseRecOn with
    | nil => rfl
    | append_singleton us t ih =>
      by_cases h : t.kind.isSpace = true
      · rw [List.rdropWhile_concat_pos (·.kind.isSpace) us t h, ih, words_append_of_space h]
      · rw [List.rdropWhile_concat_neg (·.kind.isSpace) us t h]
  exact (hright _).trans hleft

theorem splitOnP_cons_of_word (h : t.kind.isSpace = false) (ts : List Token) :
    (t :: ts).splitOnP (·.kind.isSpace) = (ts.splitOnP (·.kind.isSpace)).modifyHead (t :: ·) := by
  rw [List.splitOnP_cons_eq_if_modifyHead, if_neg (by rw [h]; exact Bool.false_ne_true)]

/-- A token behind which there is white space is a word of its own. -/
theorem words_cons_cons_of_space {u : Token} (h : t.kind.isSpace = false) (hu : u.kind.isSpace = true) :
    words (t :: u :: ts) = [t] :: words ts := by
  rw [words, splitOnP_cons_of_word h, List.splitOnP_cons_eq_if_modifyHead, if_pos hu]
  rfl

/-- Any other token belongs to the next word. -/
theorem exists_words_cons (h : t.kind.isSpace = false) (ts : List Token) : ∃ w ws, words (t :: ts) = (t :: w) :: ws ∧
    ∀ u : Token, u.kind.isSpace = false → words (u :: t :: ts) = (u :: t :: w) :: ws := by
  obtain ⟨w, ws, hw⟩ := List.exists_cons_of_ne_nil (List.splitOnP_ne_nil (·.kind.isSpace) ts)
  refine ⟨w, ws.filter (!·.isEmpty), ?_, fun u hu => ?_⟩
  · rw [words, splitOnP_cons_of_word h, hw]
    rfl
  · rw [words, splitOnP_cons_of_word hu, splitOnP_cons_of_word h, hw]
    rfl

/-- White space behind a token separates it from the next word, if there is one. -/
theorem joined_cons (sep : List α) (f : Token → List α) (h : t.kind.isSpace = false) (ts : List Token) :
    joined sep f (t :: ts) =
      f t ++ ((if ts.head?.any (·.kind.isSpace) ∧ words ts ≠ [] then sep else []) ++ joined sep f ts) := by
  cases ts with
  | nil =>
    rw [joined, words, splitOnP_cons_of_word h]
    simp [joined, words]
  | cons u ts =>
    cases hu : u.kind.isSpace with
    | true =>
      rw [joined, joined, words_cons_cons_of_space h hu, words_cons_of_space hu]
      by_cases hne : words ts = []
      · simp [hne]
      · rw [if_pos ⟨hu, hne⟩, List.map_cons, List.intercalate_cons_of_ne_nil (by simpa using hne)]
        simp
    | false =>
      obtain ⟨w, ws, hw, htw⟩ := exists_words_cons hu ts
      rw [joined, joined, hw, htw t h, if_neg fun hs => Bool.false_ne_true (hu.symm.trans hs.1)]
      cases ws with
      | nil => simp
      | cons v vs => simp [List.intercalate_cons_cons]

theorem joined_cons_of_space (sep : List α) (f : Token → List α) (h : t.kind.isSpace = true) (ts : List Token) :
    joined sep f (t :: ts) = joined sep f ts := by
  rw [joined, words_cons_of_space h, joined]

/-- Induction along tokens that are white space or belong to a word. -/
theorem words_induct {motive : List Token → Prop} (nil : motive [])
    (space : ∀ t ts, t.kind.isSpace = true → motive ts → motive (t :: ts))
    (word : ∀ t ts, t.kind.isSpace = false → motive ts → motive (t :: ts)) (ts : List Token) : motive ts := by
  induction ts with
  | nil => exact nil
  | cons t ts ih =>
    cases h : t.kind.isSpace with
    | true => exact space t ts h ih
    | false => exact word t ts h ih

theorem words_eq_nil_iff : words ts = [] ↔ ∀ t ∈ ts, t.kind.isSpace = true := by
  induction ts using words_induct with
  | nil => exact ⟨fun _ => nofun, fun _ => rfl⟩
  | space t ts h ih => rw [words_cons_of_space h, ih, List.forall_mem_cons, and_iff_right h]
  | word t ts h _ =>
    obtain ⟨w, ws, hw, -⟩ := exists_words_cons h ts
    refine iff_of_false (by rw [hw]; exact List.cons_ne_nil _ _) fun hall => ?_
    rw [hall t List.mem_cons_self] at h
    cases h

/-- What is done to the parts is done to the whole. -/
theorem joined_hom {φ : List α → List β} (hnil : φ [] = []) (happ : ∀ as bs, φ (as ++ bs) = φ as ++ φ bs)
    (sep : List α) (f : Token → List α) (ts : List Token) :
    φ (joined sep f ts) = joined (φ sep) (fun t => φ (f t)) ts := by
  induction ts using words_induct with
  | nil => exact hnil
  | space t ts h ih => rw [joined_cons_of_space _ _ h, joined_cons_of_space _ _ h, ih]
  | word t ts h ih =>
    rw [joined_cons _ _ h, joined_cons _ _ h, happ, happ, ih]
    split
    · rfl
    · rw [hnil]

theorem joined_nil_left (f : Token → List α) (ts : List Token) :
    joined [] f ts = (ts.filter (!·.kind.isSpace)).flatMap f := by
  induction ts using words_induct with
  | nil => rfl
  | space t ts h ih =>
    rw [joined_cons_of_space _ _ h, ih, List.filter_cons_of_neg (by rw [h]; exact Bool.false_ne_true)]
  | word t ts h ih =>
    rw [joined_cons _ _ h, ih, ite_self, List.nil_append, List.filter_cons_of_pos (by rw [h]; rfl), List.flatMap_cons]

/-- What is joined stands between words or belongs to one of them. -/
theorem mem_joined {sep : List α} {f : Token → List α} {x : α} (hx : x ∈ joined sep f ts) :
    x ∈ sep ∨ ∃ t ∈ ts, t.kind.isSpace = false ∧ x ∈ f t := by
  have hrest {t : Token} {ts : List Token} (h : x ∈ sep ∨ ∃ u ∈ ts, u.kind.isSpace = false ∧ x ∈ f u) :
      x ∈ sep ∨ ∃ u ∈ t :: ts, u.kind.isSpace = false ∧ x ∈ f u :=
    h.imp_right fun ⟨u, hu, h⟩ => ⟨u, List.mem_cons_of_mem t hu, h⟩
  induction ts using words_induct with
  | nil => cases hx
  | space t ts h ih =>
    rw [joined_cons_of_space _ _ h] at hx
    exact hrest (ih hx)
  | word t ts h ih =>
    rw [joined_cons _ _ h, List.mem_append, List.mem_append] at hx
    rcases hx with hx | hx | hx
    · exact .inr ⟨t, List.mem_cons_self, h, hx⟩
    · split at hx
      · exact .inl hx
      · cases hx
    · exact hrest (ih hx)

theorem head?_trimmed (ts : List Token) : (trimmed ts).head? = ts.find? (!·.kind.isSpace) := by
  have hinner : ts.find? (!·.kind.isSpace) = (ts.dropWhile (·.kind.isSpace)).head? := by
    rw [List.find?_eq_head?_dropWhile_not]
    simp only [Bool.not_not]
  change ((ts.dropWhile (·.kind.isSpace)).rdropWhile (·.kind.isSpace)).head? = _
  rw [hinner]
  cases hi : ts.dropWhile (·.kind.isSpace) with
  | nil => rfl
  | cons u us =>
    have hu := List.find?_some (hinner.trans (congrArg List.head? hi))
    have hne : (u :: us).rdropWhile (·.kind.isSpace) ≠ [] := fun hnil => by
      rw [List.rdropWhile_eq_nil_iff.1 hnil u List.mem_cons_self] at hu
      cases hu
    obtain ⟨v, vs, hv⟩ := List.exists_cons_of_ne_nil hne
    obtain ⟨rest, hrest⟩ := List.rdropWhile_prefix (·.kind.isSpace) (u :: us)
    rw [hv, List.cons_append, List.cons.injEq] at hrest
    rw [hv, hrest.1]
    rfl

theorem isSpace_of_mem_getLast?_trimmed (h : t ∈ (trimmed ts).getLast?) : t.kind.isSpace = false := by
  have hne : trimmed ts ≠ [] := by
    rintro he
    rw [he] at h
    cases h
  have hlast := List.rdropWhile_last_not (fun t : Token => t.kind.isSpace) (ts.dropWhile (·.kind.isSpace)) hne
  rw [List.getLast?_eq_some_getLast hne] at h
  cases h
  exact Bool.eq_false_iff.2 hlast

/-- **What stands between the quotes of a literal**, if the tokens end without white space. -/
theorem literalBody_eq (added : Char → Glyph) (spaced : Bool) (h : ∀ t ∈ ts.getLast?, t.kind.isSpace = false) :
    literalBody added spaced ts = (if ts.head?.any (·.kind.isSpace) ∧ spaced = false then [added ' '] else []) ++
      joined [added ' '] (fun t => escaped added t.glyphs) ts := by
  have htail {t : Token} {ts : List Token} (h : ∀ u ∈ (t :: ts).getLast?, u.kind.isSpace = false) :
      ∀ u ∈ ts.getLast?, u.kind.isSpace = false := by
    cases ts with
    | nil => exact nofun
    | cons u ts => rwa [List.getLast?_cons_cons] at h
  induction ts using words_induct generalizing spaced with
  | nil => rfl
  | space t ts ht ih =>
    rw [literalBody, if_pos ht, ih true (htail h), joined_cons_of_space _ _ ht]
    cases spaced <;> simp [ht]
  | word t ts ht ih =>
    -- where white space follows, so does a word
    have hiff : (ts.head?.any (·.kind.isSpace) = true ∧ words ts ≠ []) ↔
        ts.head?.any (·.kind.isSpace) = true ∧ false = false := by
      refine and_congr_right fun hhead => iff_of_true (fun hw => ?_) rfl
      have hne : ts ≠ [] := by
        rintro rfl
        cases hhead
      have hlast := htail h (ts.getLast hne) (List.getLast?_eq_some_getLast hne)
      rw [words_eq_nil_iff.1 hw _ (List.getLast_mem hne)] at hlast
      cases hlast
    rw [literalBody, if_neg (by rw [ht]; exact Bool.false_ne_true), ih false (htail h), joined_cons _ _ ht]
    simp only [hiff]
    rw [List.head?_cons, Option.any_some, ht]
    rfl

end Words

/-! ## Pieces -/

/-- A piece of a literal that tokens are made. -/
inductive Piece where
  /-- The quote at either end. -/
  | quote
  /-- A space in the place of white space. -/
  | space
  /-- A backslash in front of a quote or a backslash. -/
  | escape
  /-- A glyph of a token. -/
  | own (g : Glyph)
deriving DecidableEq

namespace Piece

/-- The glyph of a piece. What is no token's own lies at `place`. -/
def glyph (file : Option String) (place : Location) : Piece → Glyph
  | quote => .plain '"' file place
  | space => .plain ' ' file place
  | escape => .plain '\\' file place
  | own g => g

/-- The glyph of a token; what was added is none. -/
def own? : Piece → Option Glyph
  | own g => some g
  | quote | space | escape => none

/-- A glyph of a token within a literal. -/
def ofGlyph (g : Glyph) : List Piece := if g.is '\\' || g.is '"' then [escape, own g] else [own g]

end Piece

/-- What is between the quotes of the literal that some tokens are made. -/
def innerPieces (ts : List Token) : List Piece := joined [.space] (·.glyphs.flatMap Piece.ofGlyph) ts

/-- The pieces of that literal. -/
def pieces (ts : List Token) : List Piece := .quote :: innerPieces ts ++ [.quote]

section Pieces

variable (file : Option String) (place : Location)

theorem escaped_eq (gs : List Glyph) :
    escaped (.plain · file place) gs = (gs.flatMap Piece.ofGlyph).map (Piece.glyph file place) := by
  rw [escaped, List.map_flatMap]
  refine congrArg (gs.flatMap ·) (funext fun g => ?_)
  rw [Piece.ofGlyph]
  split <;> rfl

theorem joined_trimmed {α : Type} (sep : List α) (f : Token → List α) (ts : List Token) :
    joined sep f (trimmed ts) = joined sep f ts := by
  rw [joined, words_trimmed, joined]

/-- **A literal is made of its pieces.** -/
theorem glyphs_stringize (ts : List Token) :
    .plain '"' file place :: literalBody (.plain · file place) false (trimmed ts) ++ [.plain '"' file place] =
      (pieces ts).map (Piece.glyph file place) := by
  have hhead : ¬ ((trimmed ts).head?.any (·.kind.isSpace) = true ∧ false = false) := by
    rintro ⟨h, -⟩
    obtain ⟨t, ht, hspace⟩ := (Option.any_eq_true _ _).1 h
    rw [head?_trimmed] at ht
    have hword := List.find?_some ht
    rw [hspace] at hword
    cases hword
  rw [literalBody_eq _ false fun _ => isSpace_of_mem_getLast?_trimmed, if_neg hhead, List.nil_append, joined_trimmed,
    pieces, List.map_append, List.map_cons, innerPieces,
    joined_hom (φ := List.map (Piece.glyph file place)) List.map_nil fun _ _ => List.map_append]
  simp only [escaped_eq]
  rfl

theorem spelling_escaped (gs : List Glyph) :
    spelling (escaped (.plain · file place) gs) = Text.withEscapes (spelling gs) := by
  induction gs with
  | nil => rfl
  | cons g gs ih =>
    have hcons : escaped (.plain · file place) (g :: gs) = (if g.is '\\' || g.is '"' then
        [.plain '\\' file place, g] else [g]) ++ escaped (.plain · file place) gs := List.flatMap_cons
    rw [hcons, Glyph.spelling_append, ih]
    cases hv : g.value? with
    | none =>
      rw [if_neg (by simp [Glyph.is, hv])]
      simp [spelling, hv]
    | some c =>
      have hiff : (g.is '\\' || g.is '"') = true ↔ c = '\\' ∨ c = '"' := by simp [Glyph.is, hv]
      rw [Glyph.spelling_cons hv, Text.withEscapes_cons]
      simp only [hiff]
      split <;> simp [spelling, hv]

/-- **What a literal shows**: its text with escapes, between quotes. -/
theorem spelling_pieces (ts : List Token) : spelling ((pieces ts).map (Piece.glyph file place)) =
    '"' :: Text.withEscapes (phrase ts) ++ ['"'] := by
  have hinner : spelling ((innerPieces ts).map (Piece.glyph file place)) = Text.withEscapes (phrase ts) := by
    rw [innerPieces, joined_hom (φ := List.map (Piece.glyph file place)) List.map_nil fun _ _ => List.map_append,
      joined_hom (φ := spelling) rfl Glyph.spelling_append, phrase,
      joined_hom (φ := Text.withEscapes) rfl fun _ _ => List.flatMap_append]
    simp only [← escaped_eq, spelling_escaped]
    rfl
  rw [pieces, List.map_append, List.map_cons, Glyph.spelling_append, Glyph.spelling_cons rfl, hinner]
  rfl

end Pieces

/-- **What is left without the pieces that were added** are the glyphs of the tokens but white space, in order. -/
theorem filterMap_pieces (ts : List Token) :
    (pieces ts).filterMap Piece.own? = (ts.filter (!·.kind.isSpace)).flatMap glyphs := by
  have hown (gs : List Glyph) : (gs.flatMap Piece.ofGlyph).filterMap Piece.own? = gs := by
    induction gs with
    | nil => rfl
    | cons g gs ih =>
      rw [List.flatMap_cons, List.filterMap_append, ih, Piece.ofGlyph]
      split <;> rfl
  have hinner : (innerPieces ts).filterMap Piece.own? = joined [] glyphs ts := by
    rw [innerPieces, joined_hom (φ := List.filterMap Piece.own?) List.filterMap_nil fun _ _ => List.filterMap_append]
    simp only [hown]
    rfl
  rw [pieces, List.filterMap_append, ← joined_nil_left, ← hinner]
  exact List.append_nil _

/-! ## Reading a literal -/

/-- **A literal is read as one string literal**, if there is no line feed in its text. -/
theorem lexemes_literal [Alphabet] {cs : List Char} (h : '\n' ∉ cs) : lexemes ('"' :: Text.withEscapes cs ++ ['"']) =
    [⟨Glyph.inscribe none .origin ('"' :: Text.withEscapes cs ++ ['"']), .string, []⟩] := by
  have hl : Table.text.lookup '"' = some (.finish (.routine Table.stringLiteral)) := rfl
  have hm : Table.text.munch '"' ('"' :: (Text.withEscapes cs ++ ['"'])) =
      ⟨.string, (Text.withEscapes cs ++ ['"']).length + 1, []⟩ := by
    rw [Table.munch_of_lookup hl, Action.munch, Rule.munch, Table.stringLiteral, Routine.munch, List.drop_succ_cons,
      List.drop_zero, Text.literalLength_withEscapes h, List.length_append, Nat.add_comm]
    rfl
  have hone : lexemes ('"' :: (Text.withEscapes cs ++ ['"'])) = _ := lexemes_of_munch (by rw [hm]) (by rw [hm])
  rwa [hm] at hone

/-- The file of the first of some tokens that is not white space. -/
def fileOf (ts : List Token) : Option String := (ts.find? (!·.kind.isSpace)).bind file?

theorem stringize_eq {ts : List Token} (h : ∀ t ∈ ts, t.Solid) (place : Location) :
    stringize ts place = .ok ⟨(pieces ts).map (Piece.glyph (fileOf ts) place), .string, []⟩ := by
  obtain ⟨t, ht⟩ := stringize_ok h place
  rw [stringize_eq_make] at ht ⊢
  obtain ⟨-, -, rfl⟩ := make_eq_ok_iff.1 ht
  rw [ht, head?_trimmed, ← fileOf, glyphs_stringize]

/-- The text of tokens of a lexer has no carriage return in it, and no line feed either. -/
theorem notMem_phrase [Alphabet] {ts : List Token} (h : ∀ t ∈ ts, t.Returned) :
    '\n' ∉ phrase ts ∧ '\r' ∉ phrase ts := by
  constructor
  · intro hn
    rcases mem_joined hn with hn | ⟨t, ht, hword, hn⟩
    · exact absurd hn (by decide)
    · exact (h t ht).newline_notMem hword hn
  · intro hr
    rcases mem_joined hr with hr | ⟨t, ht, -, hr⟩
    · exact absurd hr (by decide)
    · exact Glyph.return_notMem ((h t ht).lexed.made Glyph.closed_unified).2 hr

variable {σ : Type}

/-- **A string literal of tokens is a faithful one.** Tokens of a lexer can be made a string literal. It begins and ends
with a quote, and between these, once the escapes are undone, stands the text of the tokens. Read on its own it is one
string literal that shows the same. But for the quotes, spaces and backslashes that were added, all of them at the
given place, its glyphs are those of the tokens but white space, in order. -/
theorem stringize_faithful [Alphabet] {ts : List Token} (h : ∀ t ∈ ts, t.Returned) (place : Location) (s : σ) :
    ∃ t, stringize ts place = .ok t ∧ t.kind = .string ∧
      (∃ inner, t.value = String.ofList ('"' :: inner ++ ['"']) ∧ Text.withoutEscapes inner = phrase ts) ∧
      (∃ u, ((relex t.value).run s).1 = .ok [u] ∧ u.kind = .string ∧ u.value = t.value) ∧
      t.glyphs = (pieces ts).map (Piece.glyph (fileOf ts) place) ∧
      (pieces ts).filterMap Piece.own? = (ts.filter (!·.kind.isSpace)).flatMap glyphs := by
  obtain ⟨hn, hr⟩ := notMem_phrase h
  have hvalue : (⟨(pieces ts).map (Piece.glyph (fileOf ts) place), .string, []⟩ : Token).value =
      String.ofList ('"' :: Text.withEscapes (phrase ts) ++ ['"']) := by
    rw [value, spelling_pieces]
  have hr' : '\r' ∉ '"' :: Text.withEscapes (phrase ts) ++ ['"'] := by
    intro hm
    simp only [List.cons_append, List.mem_cons, List.mem_append, List.not_mem_nil, or_false] at hm
    rcases hm with hm | hm | hm
    · exact absurd hm (by decide)
    · exact (Text.mem_withEscapes hm).elim (by decide) hr
    · exact absurd hm (by decide)
  obtain ⟨s', hread⟩ := relex_eq hr' (⟨s, []⟩ : Logged σ)
  rw [lexemes_literal hn, ← hvalue] at hread
  refine ⟨_, stringize_eq (fun t ht => (h t ht).lexed.solid) place, rfl, ⟨_, hvalue, Text.withoutEscapes_withEscapes _⟩,
    ⟨_, congrArg Prod.fst (ScanM.run_of_ok hread), rfl, ?_⟩, rfl, filterMap_pieces ts⟩
  rw [hvalue, value, Glyph.spelling_inscribe]

/-- White space before and between words, of which the last is a literal that does not end, after a backslash. -/
theorem stringize_faithful_unterminated :
    ∃ ts : List Token, (∀ t ∈ ts, t.Returned) ∧ ts.map value = [" ", "a", " ", "\"b\\"] ∧
      phrase ts = "a \"b\\".toList ∧ ∃ t, stringize ts .origin = .ok t ∧ t.kind = .string ∧
        t.value = "\"a \\\"b\\\\\"" ∧ Text.withoutEscapes "a \\\"b\\\\".toList = phrase ts ∧
        ∃ u, ((relex t.value).run ()).1 = .ok [u] ∧ u.kind = .string ∧ u.value = t.value := by
  have hrun : ((Lexer.answers [.next, .next, .next, .next]).run
      (.ofFile (.ofFeed [.bytes [32, 97, 32, 34, 98, 92]] none) false [])).1.toOption.map
        (·.filterMap Reply.token?) = some [
        .ok (some ⟨[.plain ' ' none .origin], .delimiter, []⟩),
        .ok (some ⟨[.plain 'a' none (Location.origin.after [' '])], .identifier, []⟩),
        .ok (some ⟨[.plain ' ' none (Location.origin.after [' ', 'a'])], .delimiter, []⟩),
        .ok (some ⟨Glyph.inscribe none (Location.origin.after [' ', 'a', ' ']) ['"', 'b', '\\'], .string, []⟩)] := by
    decide +kernel
  have h : ∀ t ∈ ([⟨[.plain ' ' none .origin], .delimiter, []⟩,
      ⟨[.plain 'a' none (Location.origin.after [' '])], .identifier, []⟩,
      ⟨[.plain ' ' none (Location.origin.after [' ', 'a'])], .delimiter, []⟩,
      ⟨Glyph.inscribe none (Location.origin.after [' ', 'a', ' ']) ['"', 'b', '\\'], .string, []⟩] : List Token),
      t.Returned := by
    simp only [List.forall_mem_cons, List.not_mem_nil, false_implies, implies_true, and_true]
    exact ⟨returned_of_run hrun (by simp), returned_of_run hrun (by simp), returned_of_run hrun (by simp),
      returned_of_run hrun (by simp)⟩
  obtain ⟨t, ht, hk, ⟨inner, hv, hinner⟩, hread, -, -⟩ := stringize_faithful h .origin ()
  have hvalue : t.value = "\"a \\\"b\\\\\"" := by
    cases ht
    decide
  have hin : inner = "a \\\"b\\\\".toList := by
    have hlist : '"' :: inner ++ ['"'] = '"' :: "a \\\"b\\\\".toList ++ ['"'] := by
      rw [← String.toList_ofList (l := '"' :: inner ++ ['"']), ← hv, hvalue]
      rfl
    exact (List.cons.inj (List.append_cancel_right hlist)).2
  exact ⟨_, h, rfl, rfl, t, ht, hk, hvalue, hin ▸ hinner, hread⟩

end Token

end Pretoken
