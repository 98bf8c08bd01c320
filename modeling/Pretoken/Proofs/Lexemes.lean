import Pretoken.Proofs.Replaying
import Pretoken.Proofs.TokenSteps
import Pretoken.Words

/-!
# Single tokens of a replay

* `Table.Breaks`: in a table a backslash before a line feed and a line feed stand alone.
* **`Replay.readToken_backslash`**, `Replay.readToken_lineFeed`: so they are tokens of their own.
* **`Replay.readToken_directiveName`**: what spells the name of a directive is an identifier.
-/

namespace Pretoken

open ScanM (Gives)

/-! ## Tables -/

namespace Table

/-- Unless it begins a universal character name, a backslash stands alone. So does a line feed, which is
of the kind `k`. -/
structure Breaks (table : Table) (k : TokenKind) : Prop where
  fits : table.fits = true
  backslash : table.lookup '\\' = some (.nested afterBackslash (.fixed .unknown))
  lineFeed : table.lookup '\n' = some (.finish (.fixed k))

theorem breaks_text : Breaks text .delimiter := ⟨fits_text, rfl, rfl⟩

theorem breaks_directive : Breaks directive .directiveEnd := ⟨fits_directive, rfl, rfl⟩

theorem breaks_includeOperand : Breaks includeOperand .directiveEnd := ⟨fits_includeOperand, rfl, rfl⟩

/-- The name of a directive begins with a letter that begins nothing but identifiers, or with `un`. It is
free of what a digraph stands for. -/
theorem directiveName_chars {word : String} (h : isDirectiveName word = true) :
    ∃ c d rest, word.toList = c :: d :: rest ∧ (c ∈ ['i', 'd', 'e', 'l', 'p'] ∨ c = 'u' ∧ d = 'n') ∧
      ∀ digraph : Digraph, digraph.primary ∉ word.toList := by
  have hmem : word ∈ directiveNames := List.contains_iff_mem.1 h
  simp only [directiveNames, List.mem_cons, List.not_mem_nil, or_false] at hmem
  rcases hmem with rfl | rfl | rfl | rfl | rfl | rfl | rfl | rfl | rfl | rfl | rfl | rfl <;>
    exact ⟨_, _, _, rfl, by decide, fun digraph => by cases digraph <;> decide⟩

theorem lookup_letter {c : Char} (h : c ∈ ['i', 'd', 'e', 'l', 'p']) :
    directive.lookup c = some (.finish identifier) := by
  simp only [List.mem_cons, List.not_mem_nil, or_false] at h
  rcases h with rfl | rfl | rfl | rfl | rfl <;> rfl

end Table

theorem LinePlace.breaks (place : LinePlace) : place.table.Breaks .directiveEnd := by
  cases place with
  | name | body => exact Table.breaks_directive
  | operand => exact Table.breaks_includeOperand

/-- In a directive only a line feed begins a token that ends the line. -/
theorem LinePlace.eq_of_directiveEnd {place : LinePlace} {c : Char} {action : Action}
    (h : place.table.lookup c = some action) (hk : .directiveEnd ∈ action.gather Rule.kinds) : c = '\n' := by
  cases place with
  | name | body => exact Table.eq_of_lookup (by decide) (by decide) (by decide) h hk
  | operand => exact Table.eq_of_lookup (by decide) (by decide) (by decide) h hk

namespace Replay

open Scanner

variable {table : Table} {k : TokenKind} {w : List Glyph} {d : Draft} {g h b n : Glyph} {c : Char}

/-! ## Exact moves -/

/-- The draft is `d`, and the glyphs `w` are to come. -/
def At (d : Draft) (w : List Glyph) (s : Scanner Replay) : Prop :=
  s.draft = d ∧ s.source.coming = w

theorem next_cons : Gives (At d (h :: w)) next fun x s => x = h ∧ At d w s := by
  rintro ⟨⟨⟨coming, name, finish⟩, d⟩, log⟩ ⟨rfl, rfl⟩
  exact ⟨h, _, rfl, rfl, rfl, rfl⟩

variable [Alphabet]

theorem nested_miss {cases : List Case} {otherwise : Rule} {Q : TokenKind → Scanner Replay → Prop}
    (hv : h.value? = some c) (hf : find cases c = none) (ho : Gives (At d (h :: w)) otherwise.run Q) :
    Gives (At d (h :: w)) (Action.nested cases otherwise).run Q := by
  unfold Action.run
  refine next_cons.bind fun x => .of_prop ?_
  rintro rfl
  rw [Case.choose_eq, hv, Option.bind_some, hf]
  have hback := putBack_any (g := x) (P := fun e coming => e = d ∧ coming = x :: w)
  refine (hback.pre fun s hs => ?_).bind fun _ => ho
  dsimp only
  rw [if_neg (by rw [Glyph.isEof_eq_false_of_value? hv]; decide), hs.2]
  exact ⟨hs.1, rfl⟩

/-! ## A backslash and a line feed -/

/-- **A backslash before a line feed is a token of its own.** -/
theorem readToken_backslash (ht : table.Breaks k) (hb : b.is '\\') (hn : n.is '\n') :
    Gives (Ready (b :: n :: w)) (readToken table) fun o s =>
      o = some ⟨[b], .unknown, []⟩ ∧ Ready (n :: w) s := by
  have hv := Glyph.is_iff.1 hb
  refine (readToken_cons (w := n :: w) (S := fun k gs coming => k = .unknown ∧ gs = [b] ∧ coming = n :: w)
    hv ?_ ?_).post ?_
  · rintro k gs coming ⟨-, rfl, -⟩
    simpa using Glyph.isEof_eq_false_of_value? hv
  · rw [readRest, ht.backslash]
    refine (nested_miss (Q := fun k s => k = .unknown ∧ At ⟨[b]⟩ (n :: w) s) (Glyph.is_iff.1 hn) rfl
      (.pure _ fun _ hs => ⟨rfl, hs⟩)).post ?_
    rintro k s ⟨hk, hd, hc⟩
    exact ⟨hk, by rw [hd]; rfl, hc⟩
  · rintro o s ⟨⟨gs, k, cs⟩, coming, rfl, rfl, hr, rfl, rfl, rfl⟩
    exact ⟨rfl, hr⟩

theorem readToken_lineFeed (ht : table.Breaks k) (hn : n.is '\n') :
    Gives (Ready (n :: w)) (readToken table) fun o s => o = some ⟨[n], k, []⟩ ∧ Ready w s := by
  have hv := Glyph.is_iff.1 hn
  refine (readToken_cons (w := w) (S := fun kind gs coming => kind = k ∧ gs = [n] ∧ coming = w) hv ?_
    ?_).post ?_
  · rintro kind gs coming ⟨-, rfl, -⟩
    simpa using Glyph.isEof_eq_false_of_value? hv
  · rw [readRest, ht.lineFeed]
    exact .pure _ fun s hs => ⟨rfl, by rw [hs.1]; rfl, hs.2⟩
  · rintro o s ⟨⟨gs, k, cs⟩, coming, rfl, rfl, hr, rfl, rfl, rfl⟩
    exact ⟨rfl, hr⟩

/-! ## Names of directives -/

theorem identifierRun_gives (hw : ∀ x ∈ g :: w, x.Placed) :
    Gives (At ⟨[g]⟩ w) Routine.identifier.run fun k s => k = .identifier ∧ Written (g :: w) [] s := by
  have hrun := identifier_gives (w := g :: w) (n := 1) fun x hx => (hw x hx).isEof
  refine (hrun.pre fun s hs => ?_).bind fun _ => .pure _ fun s hs => ⟨rfl, hs.written⟩
  exact ⟨by rw [hs.1, hs.2]; rfl, by rw [hs.1]; exact Nat.le_refl 1⟩

/-- What begins like the name of a directive is an identifier. -/
theorem readToken_identifier (hw : ∀ x ∈ g :: h :: w, x.Placed) {e : Char} (hg : g.value? = some c)
    (hh : h.value? = some e) (hc : c ∈ ['i', 'd', 'e', 'l', 'p'] ∨ c = 'u' ∧ e = 'n') :
    Gives (Ready (g :: h :: w)) (readToken .directive) fun o _ => ∀ t ∈ o, t.kind = .identifier := by
  refine (readToken_cons (w := h :: w) (S := fun k gs coming => k = .identifier ∧
    ∃ p, Covers gs p ∧ p ++ coming = g :: h :: w ∧ p ≠ []) hg ?_ ?_).post ?_
  · rintro k gs coming ⟨-, p, hp, hpw, hne⟩
    exact hp.proper hw hpw hne
  · rw [readRest]
    rcases hc with hc | ⟨rfl, rfl⟩
    · rw [Table.lookup_letter hc]
      exact identifierRun_gives hw
    · exact nested_miss hh rfl (identifierRun_gives hw)
  · rintro o s ⟨t, coming, rfl, -, -, hk, -⟩ _ ⟨⟩
    exact hk

/-- **What spells the name of a directive is an identifier.** -/
theorem readToken_directiveName (hw : ∀ x ∈ w, x.Placed) {s s' : Logged (Scanner Replay)} {t : Token}
    (hs : Ready w s.state) (ht : readToken .directive s = .ok (some t) s')
    (hname : isDirectiveName t.value = true) : t.kind = .identifier := by
  obtain ⟨o, s'', ho, hr⟩ := readToken_gives Table.fits_directive hw s hs
  obtain ⟨rfl, rfl⟩ : some t = o ∧ s' = s'' := by
    rw [ht] at ho
    exact EStateM.Result.ok.inj ho
  obtain ⟨-, -, p, rest, -, rfl, hp, -⟩ := hr
  obtain ⟨c, e, cs, hcs, hc, hfree⟩ := Table.directiveName_chars hname
  rw [Token.value, String.toList_ofList] at hcs hfree
  obtain rfl := hp.eq_of_spelling hfree
  obtain ⟨g, gs, hgs, hg, hcs⟩ := Glyph.exists_of_spelling (fun x hx => hw x (by simp [hx])) hcs
  obtain ⟨h, hs', rfl, hh, -⟩ := Glyph.exists_of_spelling (fun x hx => hw x (by simp [hgs, hx])) hcs
  rw [hgs] at hs hw
  obtain ⟨o, s'', ho, hq⟩ := readToken_identifier hw hg hh hc s hs
  rw [ht] at ho
  cases ho
  exact hq t rfl

end Replay

end Pretoken
