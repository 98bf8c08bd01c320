import Mathlib.Data.List.Chain
import Pretoken.Proofs.Probing
import Pretoken.Proofs.RoundTrip

/-!
# Spans that tile a text

Every glyph goes back to some plain glyphs of the text, one after the other. Its span reaches from the first of
them to the last, and so do the spans of tokens; where one token stops the next one starts.

* `Glyph.nodes`, `Token.nodes`: all glyphs that a glyph or a token is made of.
* `Span.Bounds`, `Glyph.Spanned`: the span of the plain glyphs behind a glyph.
* `Glyph.isChain_inscribe`: each glyph of a text lies right after the one before.
* `Phases.Shows.location`: the phases stand where the next glyph starts.
* `Lexer.Tidy`, `Lexer.Tidy.token`: what a lexer has left of a text, and what the next token takes of it.
* **`Lexer.spans_tile`**: the spans of the tokens tile the text, whatever else the lexer is asked.
-/

namespace Pretoken

open Glyph (inscribe leavesAll)

/-! ## Locations -/

namespace Location

theorem isLE_iff {a b : Location} :
    (compare a b).isLE ↔ a.line < b.line ∨ a.line = b.line ∧ a.column ≤ b.column := by
  change ((compare a.line b.line).then (compare a.column b.column)).isLE ↔ _
  rw [Ordering.isLE_then_iff_or, Nat.compare_eq_lt, Nat.compare_eq_eq, Nat.isLE_compare]

theorem isLE_refl (a : Location) : (compare a a).isLE :=
  isLE_iff.2 (.inr ⟨rfl, Nat.le_refl _⟩)

theorem isLE_trans {a b c : Location} (h : (compare a b).isLE) (h' : (compare b c).isLE) :
    (compare a c).isLE := by
  rw [isLE_iff] at h h' ⊢
  omega

/-- What follows a character lies after it. -/
theorem isLE_next (l : Location) (c : Char) : (compare l (l.next c)).isLE := by
  rw [isLE_iff, next]
  split
  · exact .inl (Nat.lt_succ_self _)
  · exact .inr ⟨rfl, Nat.le_succ _⟩

end Location

/-! ## Glyphs and the text behind them -/

/-- The plain glyphs lie from the first to the last location of the span. -/
structure Span.Bounds (s : Span) (ls : List Glyph) : Prop where
  first : ∃ c name, ls.head? = some (.plain c name s.start)
  last : ∃ c name, ls.getLast? = some (.plain c name s.stop)

namespace Glyph

mutual

/-- The glyph and all glyphs that it is made of. -/
def nodes : Glyph → List Glyph
  | g@(plain _ _ _) => [g]
  | g@(merged _ ps) | g@(eof _ ps) => g :: nodesAll ps

/-- The glyphs and all glyphs that they are made of. -/
def nodesAll : List Glyph → List Glyph
  | [] => []
  | g :: gs => g.nodes ++ nodesAll gs

end

theorem mem_nodesAll {n : Glyph} {gs : List Glyph} : n ∈ nodesAll gs ↔ ∃ g ∈ gs, n ∈ g.nodes := by
  induction gs with
  | nil => simp [nodesAll]
  | cons g gs ih => simp [nodesAll, ih]

mutual

/-- What a glyph is made of goes back to consecutive glyphs of the text. -/
theorem leaves_of_mem_nodes {n : Glyph} : (g : Glyph) → n ∈ g.nodes → n.leaves <:+: g.leaves
  | plain _ _ _, h => by
    rw [nodes, List.mem_singleton] at h
    exact h ▸ List.infix_refl _
  | merged c ps, h => by
    rw [nodes] at h
    rcases List.mem_cons.1 h with rfl | h
    · exact List.infix_refl _
    · exact leaves_of_mem_nodesAll ps h
  | eof f ps, h => by
    rw [nodes] at h
    rcases List.mem_cons.1 h with rfl | h
    · exact List.infix_refl _
    · exact leaves_of_mem_nodesAll ps h

theorem leaves_of_mem_nodesAll {n : Glyph} : (gs : List Glyph) → n ∈ nodesAll gs → n.leaves <:+: leavesAll gs
  | [], h => absurd h List.not_mem_nil
  | g :: gs, h => by
    rw [nodesAll] at h
    rcases List.mem_append.1 h with h | h
    · exact (leaves_of_mem_nodes g h).trans (List.prefix_append _ _).isInfix
    · exact (leaves_of_mem_nodesAll gs h).trans (List.suffix_append _ _).isInfix

end

/-- A glyph starts where the first plain glyph behind it lies. -/
theorem head?_leaves {l : Location} : (g : Glyph) → g.start? = some l →
    ∃ c name, g.leaves.head? = some (plain c name l)
  | plain c f p, h => by
    cases h
    exact ⟨c, f, rfl⟩
  | merged _ (g :: gs), h => by
    obtain ⟨c, name, hg⟩ := head?_leaves g h
    exact ⟨c, name, by simp [leaves, leavesAll, hg]⟩
  | eof _ (g :: gs), h => by
    obtain ⟨c, name, hg⟩ := head?_leaves g h
    exact ⟨c, name, by simp [leaves, leavesAll, hg]⟩

mutual

/-- A glyph stops where the last plain glyph behind it lies. -/
theorem getLast?_leaves {l : Location} : (g : Glyph) → g.stop? = some l →
    ∃ c name, g.leaves.getLast? = some (plain c name l)
  | plain c f p, h => by
    cases h
    exact ⟨c, f, rfl⟩
  | merged _ ps, h => getLast?_leavesAll ps h
  | eof _ ps, h => getLast?_leavesAll ps h

theorem getLast?_leavesAll {l : Location} : (gs : List Glyph) → lastStop? gs = some l →
    ∃ c name, (leavesAll gs).getLast? = some (plain c name l)
  | [g], h => by
    obtain ⟨c, name, hg⟩ := getLast?_leaves g h
    exact ⟨c, name, by simpa [leavesAll] using hg⟩
  | _ :: g :: gs, h => by
    obtain ⟨c, name, hg⟩ := getLast?_leavesAll (g :: gs) h
    exact ⟨c, name, by rw [leavesAll, List.getLast?_append, hg]; rfl⟩

end

theorem exists_bounds {g : Glyph} (hs : g.start?.isSome) (ht : g.stop?.isSome) :
    ∃ s, g.span? = some s ∧ s.Bounds g.leaves := by
  obtain ⟨a, ha⟩ := Option.isSome_iff_exists.1 hs
  obtain ⟨b, hb⟩ := Option.isSome_iff_exists.1 ht
  refine ⟨⟨a, b⟩, ?_, head?_leaves g ha, getLast?_leaves g hb⟩
  simp only [span?, spanAll?, firstStart?, lastStop?, ha, hb]

/-- The glyph has a span, from the first to the last of the plain glyphs behind it. -/
def Spanned (g : Glyph) : Prop :=
  ∃ s, g.span? = some s ∧ s.Bounds g.leaves ∧ (compare s.start s.stop).isLE

/-- All glyphs that the glyph is made of have a place. -/
def Traced (g : Glyph) : Prop := ∀ n ∈ g.nodes, n.Placed

theorem closed_traced : Closed Traced where
  placed {g} h := h g (by cases g <;> simp [nodes])
  plain name place _ := by
    intro n hn
    rw [nodes, List.mem_singleton] at hn
    rw [hn]
    exact placed_plain _ name place
  merged {c gs} hne h _ := by
    intro n hn
    rw [nodes] at hn
    rcases List.mem_cons.1 hn with rfl | hn
    · exact placed_merged c hne fun g hg => h g hg g (by cases g <;> simp [nodes])
    · obtain ⟨g, hg, hn⟩ := mem_nodesAll.1 hn
      exact h g hg n hn

/-! ## Glyphs of a text -/

/-- The second glyph lies right after the first. -/
def Precedes (g h : Glyph) : Prop := ∃ c d name place, g = plain c name place ∧ h = plain d name (place.next c)

/-- **Each glyph of a text lies right after the one before.** -/
theorem isChain_inscribe (name : Option String) (l : Location) (cs : List Char) :
    (inscribe name l cs).IsChain Precedes := by
  induction cs generalizing l with
  | nil => exact .nil
  | cons c cs ih =>
    cases cs with
    | nil => exact .singleton _
    | cons d cs => exact .cons_cons ⟨c, d, name, l, rfl, rfl⟩ (ih (l.next c))

theorem isLE_of_isChain {ls : List Glyph} (h : ls.IsChain Precedes) {s : Span} (hs : s.Bounds ls) :
    (compare s.start s.stop).isLE := by
  obtain ⟨start, stop⟩ := s
  induction h generalizing start with
  | nil =>
    obtain ⟨_, _, h⟩ := hs.first
    cases h
  | singleton g =>
    obtain ⟨⟨_, _, h⟩, ⟨_, _, h'⟩⟩ := hs
    cases h.symm.trans h'
    exact Location.isLE_refl _
  | cons_cons hr _ ih =>
    obtain ⟨c, d, name, place, rfl, rfl⟩ := hr
    obtain ⟨⟨_, _, h⟩, ⟨c', name', h'⟩⟩ := hs
    cases h
    refine Location.isLE_trans (Location.isLE_next _ c) (ih _ ⟨⟨d, name, rfl⟩, c', name', ?_⟩)
    rwa [List.getLast?_cons_cons] at h'

/-- A stretch of text starts right after the last glyph of the one before. -/
theorem start_of_isChain {ls ls' rest : List Glyph} (h : (ls ++ (ls' ++ rest)).IsChain Precedes) {s s' : Span}
    (hs : s.Bounds ls) (hs' : s'.Bounds ls') :
    ∃ c file, ls.getLast? = some (plain c file s.stop) ∧ s'.start = s.stop.next c := by
  obtain ⟨c, file, hlast⟩ := hs.last
  obtain ⟨d, file', hfirst⟩ := hs'.first
  have hnext : (plain c file s.stop).Precedes (plain d file' s'.start) :=
    (List.isChain_append.1 h).2.2 _ hlast _ (by rw [List.head?_append, hfirst]; rfl)
  obtain ⟨_, _, _, _, hg, hh⟩ := hnext
  obtain ⟨rfl, rfl, rfl⟩ := Glyph.plain.inj hg
  exact ⟨c, file, hlast, (Glyph.plain.inj hh).2.2⟩

/-- A glyph made of glyphs of a text has their span. -/
theorem spanned_of_isChain {g : Glyph} (hs : g.start?.isSome) (ht : g.stop?.isSome) {ls : List Glyph}
    (h : ls.IsChain Precedes) (hi : g.leaves <:+: ls) : g.Spanned := by
  obtain ⟨s, hspan, hb⟩ := exists_bounds hs ht
  have hg : g.leaves.IsChain Precedes := List.IsChain.infix h hi
  exact ⟨s, hspan, hb, isLE_of_isChain hg hb⟩

/-! ## Where the phases stand -/

theorem firstStart?_phaseOne (trigraphs : Bool) (gs : List Glyph) :
    firstStart? (phaseOne trigraphs gs) = firstStart? gs := by
  cases trigraphs with
  | false => rfl
  | true =>
    change firstStart? (replaceTrigraphs gs) = _
    rw [replaceTrigraphs.eq_def]
    split
    · split <;> rfl
    · rfl
    · rfl

theorem start?_attach (removed : List Glyph) {g : Glyph} (hg : g.Placed) (gs : List Glyph) :
    (attach removed g).start? = firstStart? (removed ++ g :: gs) := by
  obtain ⟨c, hc⟩ := hg.exists_value
  unfold attach
  cases removed with
  | nil => rfl
  | cons r rs =>
    simp only [hc]
    rfl

theorem firstStart?_joinLines {removed gs : List Glyph} (hp : ∀ g ∈ gs, g.Placed)
    (h : (joinLines removed gs).1 ≠ []) :
    firstStart? (joinLines removed gs).1 = firstStart? (removed ++ gs) := by
  fun_induction joinLines removed gs with
  | case1 removed b n gs hs ih =>
    rw [ih (fun g hg => hp g (by simp [hg])) h, List.append_assoc]
    rfl
  | case2 removed b n gs hs ih => exact start?_attach removed (hp b (by simp)) _
  | case3 removed g => exact start?_attach removed (hp g (by simp)) _
  | case4 removed => exact absurd rfl h

end Glyph

/-- A file stands where the next glyph starts. -/
theorem File.Holds.location {f : File} {name : Option String} {gs : List Glyph} (h : f.Holds name gs)
    (hp : ∀ g ∈ gs, g.Placed) (hne : gs ≠ []) : Glyph.firstStart? gs = some f.location := by
  obtain ⟨rfl, cs, -, rfl⟩ := h
  obtain ⟨reader, name, place, returned⟩ := f
  cases returned with
  | cons g gs => exact File.location_cons (hp g (by simp)) reader name place gs
  | nil =>
    cases cs with
    | nil => exact absurd rfl hne
    | cons c cs => rfl

/-- **The phases stand where the next glyph starts**, whatever has been given back. -/
theorem Phases.Shows.location {s : Phases} {w : List Glyph} {e : Glyph} (h : s.Shows w e) (hne : w ≠ []) :
    Glyph.firstStart? w = some (Source.location s) := by
  obtain ⟨gs, name, trailing, ⟨raw, hf, hp, rfl⟩, hj, -⟩ := h
  have hp' : ∀ g ∈ Glyph.phaseOne s.below.enabled raw, g.Placed := Glyph.placed_of_mem_phaseOne hp
  have hw : (Glyph.joinLines [] (Glyph.phaseOne s.below.enabled raw)).1 = w := by rw [hj]
  rw [← hw] at hne ⊢
  have hraw : raw ≠ [] := by
    rintro rfl
    refine hne ?_
    cases s.below.enabled <;> rfl
  rw [Glyph.firstStart?_joinLines hp' hne, List.nil_append, Glyph.firstStart?_phaseOne]
  exact hf.location hp hraw

/-! ## Tokens -/

namespace Token

mutual

/-- All glyphs that the token and its children are made of. -/
def nodes : Token → List Glyph
  | ⟨gs, _, cs⟩ => Glyph.nodesAll gs ++ nodesAll cs

/-- All glyphs that the tokens and their children are made of. -/
def nodesAll : List Token → List Glyph
  | [] => []
  | t :: ts => t.nodes ++ nodesAll ts

end

mutual

theorem leaves_of_mem_nodes {n : Glyph} : (t : Token) → n ∈ t.nodes → n.leaves <:+: t.leaves
  | ⟨gs, _, cs⟩, h => by
    rw [nodes] at h
    rcases List.mem_append.1 h with h | h
    · exact (Glyph.leaves_of_mem_nodesAll gs h).trans (List.prefix_append _ _).isInfix
    · exact (leaves_of_mem_nodesAll cs h).trans (List.suffix_append _ _).isInfix

theorem leaves_of_mem_nodesAll {n : Glyph} : (ts : List Token) → n ∈ nodesAll ts → n.leaves <:+: leavesAll ts
  | [], h => absurd h List.not_mem_nil
  | t :: ts, h => by
    rw [nodesAll] at h
    rcases List.mem_append.1 h with h | h
    · exact (leaves_of_mem_nodes t h).trans (List.prefix_append _ _).isInfix
    · exact (leaves_of_mem_nodesAll ts h).trans (List.suffix_append _ _).isInfix

end

theorem mem_nodesAll {n : Glyph} {ts : List Token} : n ∈ nodesAll ts ↔ ∃ t ∈ ts, n ∈ t.nodes := by
  induction ts with
  | nil => simp [nodesAll]
  | cons t ts ih => simp [nodesAll, ih]

theorem nodes_eq (t : Token) : t.nodes = Glyph.nodesAll t.glyphs ++ nodesAll t.children := by
  cases t
  rfl

/-- The glyphs of a token that has some lie from the start of the first to the stop of the last. -/
theorem exists_stop {gs : List Glyph} (hne : gs ≠ []) (hp : ∀ g ∈ gs, g.Placed) :
    (∃ a, Glyph.firstStart? gs = some a) ∧ ∃ b, Glyph.lastStop? gs = some b := by
  have h := Glyph.placed_merged ' ' hne hp
  exact ⟨Option.isSome_iff_exists.1 h.start, Option.isSome_iff_exists.1 h.stop⟩

/-- After a text that stops at `a`, tokens stop where the last plain glyph behind them lies. -/
theorem getLast?_children {cs : List Token} {ls : List Glyph} {a : Location}
    (hc : ∀ c ∈ cs, (c.glyphs ≠ [] ∧ ∀ g ∈ c.glyphs, g.Placed) ∧ c.children = [])
    (hl : ∃ c name, ls.getLast? = some (.plain c name a)) :
    ∃ b, lastStop? (some a) cs = some b ∧ ∃ c name, (ls ++ leavesAll cs).getLast? = some (.plain c name b) := by
  induction cs generalizing a ls with
  | nil => exact ⟨a, rfl, by simpa [leavesAll] using hl⟩
  | cons t cs ih =>
    obtain ⟨gs, k, children⟩ := t
    obtain ⟨⟨hne, hp⟩, rfl⟩ := hc _ List.mem_cons_self
    obtain ⟨-, b, hb⟩ := exists_stop hne hp
    obtain ⟨c, name, hg⟩ := Glyph.getLast?_leavesAll gs hb
    have hlast : (ls ++ leavesAll [⟨gs, k, []⟩]).getLast? = some (.plain c name b) := by
      simp [leavesAll, leaves, hg]
    obtain ⟨b', hb', hlast'⟩ := ih (fun c hm => hc c (List.mem_cons_of_mem _ hm)) ⟨c, name, hlast⟩
    refine ⟨b', ?_, ?_⟩
    · rwa [lastStop?, stop?, lastStop?, hb]
    · rwa [List.append_assoc, ← leavesAll_append] at hlast'

/-- The span of a token reaches from the first to the last of the plain glyphs behind it. -/
theorem bounds_span {t : Token} (ht : t.glyphs ≠ [] ∧ ∀ g ∈ t.glyphs, g.Placed)
    (hc : ∀ c ∈ t.children, (c.glyphs ≠ [] ∧ ∀ g ∈ c.glyphs, g.Placed) ∧ c.children = []) :
    t.span.Bounds t.leaves := by
  obtain ⟨gs, k, cs⟩ := t
  obtain ⟨⟨a, ha⟩, b, hb⟩ := exists_stop ht.1 ht.2
  obtain ⟨b', hb', hlast⟩ := getLast?_children hc (Glyph.getLast?_leavesAll gs hb)
  have hspan : span ⟨gs, k, cs⟩ = ⟨a, b'⟩ := by
    simp only [span, stop?, ha, hb, hb']
  obtain ⟨c, name, hfirst⟩ := Glyph.head?_leaves (.merged ' ' gs) ha
  rw [hspan]
  refine ⟨⟨c, name, ?_⟩, hlast⟩
  rw [leaves, List.head?_append]
  change (Glyph.leavesAll gs).head? = _ at hfirst
  rw [hfirst]
  rfl

end Token

/-! ## Lexers -/

namespace Lexer

/-- What the glyphs of a lexer over a text are made of. -/
abbrev traced : Upkeep Phases := Phases.upkeep Glyph.closed_traced LineReader.lasts_true

/-- The lexer is to give tokens that go back to the glyphs `ls` of a text, and all glyphs that it keeps are made
of glyphs with a place. -/
structure Tidy (ls : List Glyph) (l : Lexer Phases) : Prop where
  owes : l.source.Owes ls
  chain : ls.IsChain Glyph.Precedes
  fine : traced.Fine l.source

theorem tidy_ofFile {feed : Feed} {cs : List Char} (h : feed.Supplies (Utf8.encode cs)) (name : Option String)
    (trigraphs : Bool) (reserved : List String) :
    Tidy (inscribe name .origin (Text.unifyLineEnds cs)) (ofFile (.ofFeed feed name) trigraphs reserved) where
  owes := Phases.ofFile_owes h name trigraphs
  chain := Glyph.isChain_inscribe name _ _
  fine := Phases.fine_ofFile Glyph.closed_traced LineReader.lasts_true trivial name trigraphs

theorem spanned_of_whole {t : Token} (h : traced.Whole t) {ls : List Glyph} (hls : ls.IsChain Glyph.Precedes)
    (hi : t.leaves <:+: ls) : ∀ g ∈ t.nodes, g.Spanned := by
  intro g hg
  have hplaced : g.Placed := by
    rw [t.nodes_eq] at hg
    rcases List.mem_append.1 hg with hg | hg
    · obtain ⟨k, hk, hg⟩ := Glyph.mem_nodesAll.1 hg
      exact h.1.2 k hk g hg
    · obtain ⟨c, hc, hg⟩ := Token.mem_nodesAll.1 hg
      obtain ⟨hm, hnone⟩ := h.2 c hc
      rw [c.nodes_eq, hnone, Token.nodesAll, List.append_nil] at hg
      obtain ⟨k, hk, hg⟩ := Glyph.mem_nodesAll.1 hg
      exact hm.2 k hk g hg
  exact Glyph.spanned_of_isChain hplaced.start hplaced.stop hls ((t.leaves_of_mem_nodes hg).trans hi)

section

variable [Alphabet]

/-- At the end there is no token, so a lexer that gives one stands where its text starts. -/
theorem head?_of_nextToken {ls : List Glyph} {l l' : Logged (Lexer Phases)} {t : Token}
    (h : l.state.source.Owes ls) (ht : nextToken l = .ok (some t) l') :
    ∃ c name, ls.head? = some (.plain c name (location l.state)) := by
  obtain ⟨w, e, hs, rfl⟩ := h
  cases w with
  | nil =>
    obtain ⟨g, u, hu, rfl, -⟩ := Phases.take_nil ⟨l.state.source, l.log⟩ hs
    cases ht.symm.trans (nextToken_of_end hu hs.isEof)
  | cons g w =>
    obtain ⟨c, name, hg⟩ := Glyph.head?_leaves g (hs.location (List.cons_ne_nil g w))
    exact ⟨c, name, by simp [leavesAll, hg, location]⟩

namespace Tidy

variable {ls : List Glyph} {l l' : Logged (Lexer Phases)} {t : Token}

/-- **What the next token takes of a text.** -/
theorem token (h : Tidy ls l.state) (ht : nextToken l = .ok (some t) l') :
    t.span.start = location l.state ∧ t.span.Bounds t.leaves ∧ (∀ g ∈ t.nodes, g.Spanned) ∧
      ∃ rest, Tidy rest l'.state ∧ t.leaves ++ rest = ls := by
  have hwhole : traced.Whole t := (traced.nextToken.ok h.fine ht).1 t rfl
  have hplaced (u : Token) (hu : traced.Made u) : u.glyphs ≠ [] ∧ ∀ g ∈ u.glyphs, g.Placed :=
    ⟨hu.1, fun g hg => Glyph.closed_traced.placed (hu.2 g hg)⟩
  have hbounds : t.span.Bounds t.leaves :=
    Token.bounds_span (hplaced t hwhole.1) fun c hc => ⟨hplaced c (hwhole.2 c hc).1, (hwhole.2 c hc).2⟩
  obtain ⟨_, _, heq, hpaid⟩ := Phases.ledger.nextToken_gives ls l h.owes
  cases ht.symm.trans heq
  obtain ⟨rest, hrest, rfl⟩ := hpaid
  refine ⟨?_, hbounds, ?_, rest, ⟨hrest, ?_, (traced.nextToken.ok h.fine ht).2⟩, rfl⟩
  · obtain ⟨c, name, hfirst⟩ := hbounds.first
    obtain ⟨c', name', hhead⟩ := head?_of_nextToken h.owes ht
    rw [List.head?_append, hfirst] at hhead
    simp only [Option.some_or, Option.some.injEq, Glyph.plain.injEq] at hhead
    exact hhead.2.2
  · exact spanned_of_whole hwhole h.chain (List.prefix_append _ _).isInfix
  · exact h.chain.right_of_append

omit [Alphabet] in
/-- Asking for the end takes nothing of a text. -/
theorem probe (h : Tidy ls l.state) : ∃ o l', eof? l = .ok o l' ∧ Tidy ls l'.state ∧
    ∀ e ∈ o, ∀ g ∈ e.nodes, g.Spanned ∨ ∃ file, g = .eof file [] := by
  obtain ⟨w, e, hs, hls⟩ := h.owes
  cases w with
  | nil =>
    obtain ⟨g, u, hu, rfl, hp⟩ := Phases.take_nil ⟨l.state.source, l.log⟩ hs
    have heof := eof?_of_end hu hs.isEof
    refine ⟨_, _, heof, ⟨⟨[], g, hp.shows, hls⟩, h.chain, (traced.eof?.ok h.fine heof).2⟩, ?_⟩
    rintro _ ⟨⟩ n hn
    have hgood := ((traced.eof?.ok h.fine heof).1 g rfl).2
    have hinfix : n.leaves <:+: ls := by
      rw [← hls]
      exact Glyph.leaves_of_mem_nodes g hn
    match g, hs.isEof with
    | .eof file ps, _ =>
      have hall : ∀ p ∈ ps, p.Traced := hgood
      rw [Glyph.nodes] at hn
      rcases List.mem_cons.1 hn with rfl | hn
      · by_cases hps : ps = []
        · exact .inr ⟨file, by rw [hps]⟩
        · have hplaced := Glyph.placed_merged ' ' hps fun p hp => Glyph.closed_traced.placed (hall p hp)
          exact .inl (Glyph.spanned_of_isChain hplaced.start hplaced.stop h.chain hinfix)
      · obtain ⟨p, hp, hn⟩ := Glyph.mem_nodesAll.1 hn
        have hplaced := hall p hp n hn
        exact .inl (Glyph.spanned_of_isChain hplaced.start hplaced.stop h.chain hinfix)
  | cons g w =>
    have hg := hs.placed g List.mem_cons_self
    obtain ⟨_, u, hu, rfl, hpast⟩ := Phases.take_cons ⟨l.state.source, l.log⟩ hs
    obtain ⟨_, v, hv, hp⟩ := Phases.giveBack_past u hpast
    have heof := eof?_of_char hu hg.isEof hv
    exact ⟨_, _, heof, ⟨⟨_, e, hp.shows, hls⟩, h.chain, (traced.eof?.ok h.fine heof).2⟩, nofun⟩

/-- Whatever a lexer is asked, it has left the rest of its text, and only tokens take some of it. -/
theorem answer (h : Tidy ls l.state) (request : Request) :
    ∃ reply l' rest, Lexer.answer request l = .ok reply l' ∧ Tidy rest l'.state ∧
      (request ≠ .next → rest = ls) := by
  cases request with
  | next =>
    obtain ⟨o, l', ho, hpaid⟩ := Phases.ledger.nextToken_gives ls l h.owes
    have hans : Lexer.answer .next l = .ok (.token (.ok o)) l' := by rw [answer_next, ho]
    cases o with
    | none =>
      have hrest : Tidy ls l'.state :=
        ⟨Phases.ledger.owes_of_ended hpaid, h.chain, (traced.nextToken.ok h.fine ho).2⟩
      exact ⟨_, l', ls, hans, hrest, fun _ => rfl⟩
    | some t =>
      obtain ⟨-, -, -, rest, hrest, -⟩ := h.token ho
      exact ⟨_, l', rest, hans, hrest, fun hne => absurd rfl hne⟩
  | probe =>
    obtain ⟨o, l', ho, hrest, -⟩ := h.probe
    exact ⟨_, l', ls, by rw [answer_probe, ho], hrest, fun _ => rfl⟩
  | place => exact ⟨_, l, ls, rfl, h, fun _ => rfl⟩

theorem answers (h : Tidy ls l.state) (requests : List Request) :
    ∃ replies l' rest, Lexer.answers requests l = .ok replies l' ∧ Tidy rest l'.state ∧
      (.next ∉ requests → rest = ls) := by
  induction requests generalizing ls l with
  | nil => exact ⟨[], l, ls, rfl, h, fun _ => rfl⟩
  | cons request requests ih =>
    obtain ⟨reply, l₁, rest, h₁, hrest, heq⟩ := h.answer request
    obtain ⟨replies, l', rest', h', hrest', heq'⟩ := ih hrest
    refine ⟨_, l', rest', answers_cons h₁ h', hrest', fun hn => ?_⟩
    rw [List.mem_cons, not_or] at hn
    rw [heq' hn.2, heq fun hne => hn.1 hne.symm]

end Tidy

/-- **Spans and locations tile the text.** Whatever a lexer over a text has been asked, it does not fail when it is
asked for the next token; and if that is `t`, then `t` starts where the lexer stood, the span of `t` reaches from the
first to the last of the plain glyphs behind `t` and its children, and the next token, whatever else is asked
before it, starts right after the last of them. Every glyph of which a token or the end is made has the span of the
plain glyphs behind it, except for an end that has no text behind it. -/
theorem spans_tile {feed : Feed} {cs : List Char} (h : feed.Supplies (Utf8.encode cs)) (name : Option String)
    (trigraphs : Bool) (reserved : List String) (requests : List Request) {l : Lexer Phases}
    (hl : ((answers requests).run (ofFile (.ofFeed feed name) trigraphs reserved)).2.1 = l) :
    (∃ o l' log, nextToken.run l = (.ok o, l', log) ∧ ∀ t ∈ o,
      t.span.start = location l ∧ t.span.Bounds t.leaves ∧ (∀ g ∈ t.nodes, g.Spanned) ∧
      ∀ (between : List Request) (u : Token), .next ∉ between →
        (nextToken.run ((answers between).run l').2.1).1 = .ok (some u) →
        ∃ c file, t.leaves.getLast? = some (.plain c file t.span.stop) ∧ u.span.start = t.span.stop.next c) ∧
    ∃ o, (eof?.run l).1 = .ok o ∧
      ∀ e ∈ o, ∀ g ∈ e.nodes, g.Spanned ∨ ∃ file, g = .eof file [] := by
  obtain ⟨replies, s, ls, hs, htidy, -⟩ := Tidy.answers
    (l := ⟨ofFile (.ofFeed feed name) trigraphs reserved, []⟩) (tidy_ofFile h name trigraphs reserved) requests
  obtain rfl : s.state = l := by rw [← hl, ScanM.run_of_ok hs]
  constructor
  · obtain ⟨o, s', ho, -⟩ := Phases.ledger.nextToken_gives ls ⟨s.state, []⟩ htidy.owes
    refine ⟨o, _, _, ScanM.run_of_ok ho, ?_⟩
    rintro t rfl
    obtain ⟨hstart, hbounds, hnodes, rest, hrest, rfl⟩ := Tidy.token (l := ⟨s.state, []⟩) htidy ho
    refine ⟨hstart, hbounds, hnodes, fun between u hnext hu => ?_⟩
    obtain ⟨_, s₁, rest₁, h₁, htidy₁, hsame⟩ := Tidy.answers (l := ⟨s'.state, []⟩) hrest between
    rw [ScanM.run_of_ok h₁] at hu
    obtain ⟨s₂, h₂⟩ := ScanM.exists_of_run hu
    obtain ⟨-, hbounds', -, rest', -, hrest'⟩ := Tidy.token (l := ⟨s₁.state, []⟩) htidy₁ h₂
    have hchain := htidy.chain
    rw [← hsame hnext, ← hrest'] at hchain
    exact Glyph.start_of_isChain hchain hbounds hbounds'
  · obtain ⟨o, s', ho, -, hnodes⟩ := Tidy.probe (l := ⟨s.state, []⟩) htidy
    exact ⟨o, by rw [ScanM.run_of_ok ho], hnodes⟩

end

/-- A directive with a splice made of a trigraph in the middle of its name, which ends in a splice that nothing
follows; the end is asked for before the first token. -/
theorem spans_tile_directive :
    Feed.Supplies [.bytes [35, 105, 63], .bytes [63, 47, 13, 10, 102, 92, 10]]
      (Utf8.encode ['#', 'i', '?', '?', '/', '\r', '\n', 'f', '\\', '\n']) ∧
    ∃ l : Lexer Phases, ((answers [.probe]).run (ofFile (.ofFeed
        [.bytes [35, 105, 63], .bytes [63, 47, 13, 10, 102, 92, 10]] (some "a.c")) true [])).2.1 = l ∧
      (∃ o l' log, nextToken.run l = (.ok o, l', log) ∧ ∀ t ∈ o,
        t.span.start = location l ∧ t.span.Bounds t.leaves ∧ (∀ g ∈ t.nodes, g.Spanned) ∧
        ∀ (between : List Request) (u : Token), .next ∉ between →
          (nextToken.run ((answers between).run l').2.1).1 = .ok (some u) →
          ∃ c file, t.leaves.getLast? = some (.plain c file t.span.stop) ∧ u.span.start = t.span.stop.next c) ∧
      ∃ o, (eof?.run l).1 = .ok o ∧ ∀ e ∈ o, ∀ g ∈ e.nodes, g.Spanned ∨ ∃ file, g = .eof file [] := by
  have h : Feed.Supplies [.bytes [35, 105, 63], .bytes [63, 47, 13, 10, 102, 92, 10]]
      (Utf8.encode ['#', 'i', '?', '?', '/', '\r', '\n', 'f', '\\', '\n']) :=
    .piece 35 [105, 63] (.piece 63 [47, 13, 10, 102, 92, 10] .nil)
  exact ⟨h, _, rfl, spans_tile h (some "a.c") true [] [.probe] rfl⟩

end Lexer

end Pretoken
