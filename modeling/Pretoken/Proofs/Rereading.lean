import Pretoken.Operators
import Pretoken.Proofs.Dividing
import Pretoken.Proofs.Shadow
import Pretoken.Proofs.Splicing

/-!
# Reading a text on its own

A text that is read on its own comes from a file that has no phases on top of it. Beside a replay of its glyphs the file
gives the same tokens, so that these are known as well.

* `File.shadow`: the coupling of a file with a replay.
* `File.readAll_divide`: a scanner over a file reads the tokens of the glyphs that the file holds.
* **`Token.relex_eq`**: what comes of a text that is read on its own.
* `Token.first_inscribe`, `Token.lexemes_of_munch`: its first token, and its only one.
-/

namespace Pretoken

open ScanM (Gives)

/-! ## The bytes of a text -/

theorem toList_loop_eq (bs : ByteArray) (i : Nat) (r : List UInt8) :
    ByteArray.toList.loop bs i r = r.reverse ++ bs.data.toList.drop i := by
  induction i, r using ByteArray.toList.loop.induct bs with
  | case1 i r h ih =>
    have hi : i < bs.data.toList.length := h
    have hget : bs.get! i = bs.data.toList[i] := getElem!_pos bs.data i h
    rw [ByteArray.toList.loop, if_pos h, ih, List.reverse_cons, List.append_assoc, hget, List.drop_eq_getElem_cons hi]
    rfl
  | case2 i r h =>
    have hi : bs.data.toList.length ≤ i := Nat.le_of_not_lt h
    rw [ByteArray.toList.loop, if_neg h, List.drop_eq_nil_of_le hi, List.append_nil]

theorem toList_toUTF8 (cs : List Char) : (String.ofList cs).toUTF8.toList = Utf8.encode cs := by
  rw [String.toUTF8, String.toByteArray_ofList, ByteArray.toList, toList_loop_eq, List.utf8Encode,
    List.data_toByteArray]
  simp [Utf8.encode]

variable [Alphabet]

namespace File

open Scanner

variable {name : Option String} {g : Glyph} {w : List Glyph} {table : Table}

/-! ## A replay beside a file -/

/-- The file holds glyphs that have a place. -/
def HoldsPlaced (f : File) (name : Option String) (w : List Glyph) : Prop := f.Holds name w ∧ ∀ g ∈ w, g.Placed

/-- **A file beside a replay of what it holds.** -/
def shadow (name : Option String) : Coupling File Replay where
  Like g h := g = h ∧ g.Placed
  InStep f r := f.HoldsPlaced name r.coming
  Past _ _ f r := f.HoldsPlaced name r.coming
  Primed f r := f.HoldsPlaced name r.coming
  Loose f r := f.HoldsPlaced name r.coming
  value_eq := @Glyph.value?_of_same
  placed := @Glyph.placed_of_same
  like_merged := @Glyph.merged_of_same
  inStep_of_primed h := h
  inStep_of_past h := h
  past_of_inert _ _ _ h := h
  take := by
    rintro f ⟨⟨coming, name, finish⟩, log⟩ ⟨hf, hw⟩
    obtain ⟨g, f', ht, rfl, hf'⟩ := take_gives f hf
    rw [ht]
    cases coming with
    | nil => exact .inl ⟨rfl, rfl, ⟨hf', hw⟩, hf', hw⟩
    | cons g w =>
      rw [List.forall_mem_cons] at hw
      exact .inr ⟨⟨rfl, hw.1⟩, hf', hw.2⟩
  giveBack_past := by
    rintro g _ ⟨rfl, hg⟩ f r ⟨hf, hw⟩
    obtain ⟨_, f', hb, hf'⟩ := giveBack_gives hg.isEof f hf
    rw [hb, Replay.giveBack_eq hg.isEof]
    have hback : f'.state.HoldsPlaced name (g :: r.state.coming) := ⟨hf', List.forall_mem_cons.2 ⟨hg, hw⟩⟩
    exact ⟨hback, fun _ => hback⟩
  giveBack_backslash := by
    rintro g _ ⟨rfl, hg⟩ _ f r ⟨hf, hw⟩
    obtain ⟨_, f', hb, hf'⟩ := giveBack_gives hg.isEof f hf
    rw [hb, Replay.giveBack_eq hg.isEof]
    exact ⟨hf', List.forall_mem_cons.2 ⟨hg, hw⟩⟩

/-- A scanner at the start of a token, over a file that holds the glyphs `w`. -/
def Ready (name : Option String) (w : List Glyph) (s : Scanner File) : Prop :=
  s.draft = .empty ∧ s.source.HoldsPlaced name w

/-- What a scanner reads from a replay it reads from a file. -/
theorem readToken_gives (hf : table.fits = true) {o : Option Token} {v : List Glyph}
    (h : Gives (Replay.Ready w) (readToken table) fun o' r => o' = o ∧ Replay.Ready v r) :
    Gives (Ready name w) (readToken table) fun o' s => o' = o ∧ Ready name v s := by
  intro s hs
  obtain ⟨o₁, s', o₂, r', hs', -, hq, rfl, -, rfl⟩ := (Coupling.readToken_beside (C := shadow name) hf).total h
    (s := s) (t := ⟨⟨.ofGlyphs w name, .empty⟩, []⟩) ⟨by rw [hs.1]; rfl, rfl, hs.2⟩ ⟨rfl, rfl⟩
  match o₁, o₂, hq with
  | none, none, hq => exact ⟨none, s', hs', rfl, congrArg Draft.mk hq.1, hq.2.2⟩
  | some t, some u, hq =>
    obtain rfl := hq.1.eq And.left
    have hat := hq.2
    refine ⟨some t, s', hs', rfl, ?_⟩
    split at hat <;> exact ⟨congrArg Draft.mk hat.1, hat.2.2⟩

theorem readAll_divide (hs : table.sound = true) (hf : table.fits = true) (hw : ∀ x ∈ w, x.Placed) :
    Gives (Ready name w) (readAll table) fun ts s => ts = table.divide w ∧ Ready name [] s :=
  readAll_gives hs (readToken_gives hf Replay.readToken_nil)
    (fun _ _ hgw => readToken_gives hf ((Replay.readToken_first hs hgw).post fun _ _ h => ⟨h.1, h.2.2⟩)) hw

end File

/-! ## Texts on their own -/

namespace Token

variable {σ : Type} {cs : List Char}

/-- The tokens of some characters that are read on their own as ordinary text. -/
def lexemes (cs : List Char) : List Token := Table.text.divide (Glyph.inscribe none .origin cs)

theorem first_inscribe (c : Char) (cs : List Char) :
    Table.text.first (.plain c none .origin) (Glyph.inscribe none (Location.origin.next c) cs) =
      Table.text.munch c (c :: cs) := by
  have hcs := Glyph.spelling_inscribe none .origin (c :: cs)
  rw [Glyph.inscribe] at hcs
  rw [Table.first, hcs]
  rfl

/-- A text is a single token if its first token takes all of it. -/
theorem lexemes_of_munch {c : Char} (hlen : (Table.text.munch c (c :: cs)).length = cs.length + 1)
    (hp : (Table.text.munch c (c :: cs)).pairs = []) : lexemes (c :: cs) =
      [⟨Glyph.inscribe none .origin (c :: cs), (Table.text.munch c (c :: cs)).kind, []⟩] := by
  have hle : (Glyph.inscribe none .origin (c :: cs)).length ≤ (Table.text.munch c (c :: cs)).length := by
    rw [Glyph.length_inscribe, hlen]
    exact Nat.le_refl _
  rw [Glyph.inscribe] at hle
  rw [lexemes, Glyph.inscribe, Table.divide_cons Table.sound_text, Table.firstToken, first_inscribe, Munch.glyphs,
    if_pos hp, List.take_of_length_le hle, List.drop_of_length_le hle, Table.divide_nil]

/-- **Reading a text on its own** gives its tokens, unless there are carriage returns in it. -/
theorem relex_eq (hr : '\r' ∉ cs) (s : Logged σ) :
    ∃ s', relex (String.ofList cs) s = .ok (lexemes cs) s' := by
  have hholds := File.ofFeed_holds (Feed.supplies_single (Utf8.encode cs)) none
  rw [Text.unifyLineEnds_of_notMem hr, ← toList_toUTF8] at hholds
  obtain ⟨_, u, hu, rfl, -⟩ := File.readAll_divide Table.sound_text Table.fits_text
    (fun _ => Glyph.placed_of_mem_inscribe) ⟨.ofSource (File.ofString (String.ofList cs) none), s.log⟩
    ⟨rfl, hholds, fun _ => Glyph.placed_of_mem_inscribe⟩
  refine ⟨{ s with log := u.log }, ?_⟩
  rw [relex, ScanM.aside, onPart, hu]
  rfl

end Token

end Pretoken
