import Pretoken.Proofs.Munching

/-!
# Dividing glyphs into tokens

What a scanner reads from some glyphs is known beforehand: the first token is what the table makes of the characters,
and the others are those of what it leaves. A text that is cut off anywhere behind its first token has the same first
token.

* `Table.contexts`: the tables of all lexical contexts.
* `Table.first`, `Table.firstToken`: what a table makes of the glyphs that come first.
* `Table.divide`: the tokens of some glyphs.
* `Scanner.readAll_gives`: a scanner that reads such tokens one by one reads them all.
* `Replay.tokenOf`, `Replay.tokensOf`: what comes of reading one token, or all of them.
* **`Replay.tokenOf_take`**: a token is as long as can be, and does not depend on what follows it.
-/

namespace Pretoken

open ScanM (Gives)
open Glyph (spelling)

/-! ## Cutting off what follows -/

namespace Munch

variable {w : List Glyph} {k : Nat}

theorem pairUp_take {ds : List Digraph} (h : 2 * ds.length ≤ k) : pairUp ds (w.take k) = pairUp ds w := by
  induction ds generalizing w k with
  | nil => rfl
  | cons d ds ih =>
    rw [List.length_cons] at h
    obtain ⟨k, rfl⟩ := Nat.exists_eq_add_of_le' (show 2 ≤ k by omega)
    match w with
    | [] => rfl
    | [_] => rfl
    | g :: i :: w =>
      rw [List.take_succ_cons, List.take_succ_cons, pairUp, pairUp, ih (by omega)]

theorem glyphs_take {m : Munch} (hm : m.Paired) (h : m.length ≤ k) : m.glyphs (w.take k) = m.glyphs w := by
  unfold glyphs
  split
  · rw [List.take_take, Nat.min_eq_left h]
  · next hp => exact pairUp_take ((hm.resolve_left hp).1 ▸ h)

end Munch

namespace Table

variable {table : Table} {g : Glyph} {w : List Glyph} {k : Nat}

/-- The tables of the lexical contexts. -/
def contexts : List Table := [text, directive, includeOperand]

theorem mem_contexts : table ∈ contexts ↔ table = text ∨ table = directive ∨ table = includeOperand := by
  rw [contexts, List.mem_cons, List.mem_cons, List.mem_singleton]

theorem sound_of_mem (h : table ∈ contexts) : table.sound = true := by
  rcases mem_contexts.1 h with rfl | rfl | rfl
  · exact sound_text
  · exact sound_directive
  · exact sound_includeOperand

/-! ## The first token -/

variable [Alphabet]

/-- What a table makes of some glyphs, of which the first is `g`. -/
def first (table : Table) (g : Glyph) (w : List Glyph) : Munch :=
  table.munch (g.value?.getD default) (spelling (g :: w))

/-- The first token of some glyphs, of which the first is `g`. -/
def firstToken (table : Table) (g : Glyph) (w : List Glyph) : Token :=
  ⟨(table.first g w).glyphs (g :: w), (table.first g w).kind, []⟩

theorem first_paired (hs : table.sound = true) : (table.first g w).Paired := (munch_paired _ _ hs).1

theorem le_first (hs : table.sound = true) : 1 ≤ (table.first g w).length := le_munch hs

section Take

variable (hs : table.sound = true) (hw : ∀ x ∈ g :: w, x.Placed) (h : (table.first g w).length ≤ k + 1)
include hs hw h

theorem first_take : table.first g (w.take k) = table.first g w := by
  have htake : spelling (g :: w.take k) = (spelling (g :: w)).take (k + 1) := by
    rw [← Glyph.spelling_take hw, List.take_succ_cons]
  rw [first, htake]
  exact munch_take hs (Nat.le_add_left _ _) h

theorem firstToken_take : table.firstToken g (w.take k) = table.firstToken g w := by
  rw [firstToken, first_take hs hw h, ← List.take_succ_cons, Munch.glyphs_take (first_paired hs) h]
  rfl

end Take

/-! ## All tokens -/

/-- The tokens of some glyphs: the first one, and those of what it leaves. -/
def divide (table : Table) : List Glyph → List Token
  | [] => []
  | g :: w => table.firstToken g w :: table.divide (w.drop ((table.first g w).length - 1))
termination_by w => w.length
decreasing_by
  rw [List.length_drop, List.length_cons]
  omega

theorem divide_nil : table.divide [] = [] := by rw [divide]

theorem divide_cons (hs : table.sound = true) :
    table.divide (g :: w) = table.firstToken g w :: table.divide ((g :: w).drop (table.first g w).length) := by
  obtain ⟨n, hn⟩ := Nat.exists_eq_add_of_le' (le_first (g := g) (w := w) hs)
  rw [divide, hn]
  rfl

/-- Induction along the tokens of some glyphs. -/
theorem divide_induct (hs : table.sound = true) {motive : List Glyph → Prop} (nil : motive [])
    (cons : ∀ g w, motive ((g :: w).drop (table.first g w).length) → motive (g :: w)) (w : List Glyph) : motive w := by
  induction hn : w.length using Nat.strongRecOn generalizing w with
  | ind n ih =>
    subst hn
    cases w with
    | nil => exact nil
    | cons g w =>
      refine cons g w (ih _ ?_ _ rfl)
      have hle := le_first (g := g) (w := w) hs
      rw [List.length_drop, List.length_cons]
      omega

theorem one_le_length_divide (h : w ≠ []) : 1 ≤ (table.divide w).length := by
  obtain ⟨g, w, rfl⟩ := List.exists_cons_of_ne_nil h
  rw [divide]
  exact Nat.le_add_left _ _

/-- A text that is cut off behind its first token has the same first token. -/
theorem divide_take (hs : table.sound = true) (hw : ∀ x ∈ g :: w, x.Placed) (h : (table.first g w).length ≤ k) :
    table.divide ((g :: w).take k) =
      table.firstToken g w :: table.divide (((g :: w).take k).drop (table.first g w).length) := by
  obtain ⟨k, rfl⟩ := Nat.exists_eq_add_of_le' (Nat.le_trans (le_first hs) h)
  rw [List.take_succ_cons, divide_cons hs, firstToken_take hs hw h, first_take hs hw h]

end Table

/-! ## Reading all tokens -/

/-- A scanner that reads the first token of what it shows, and then shows what is left, reads all tokens. -/
theorem Scanner.readAll_gives [Alphabet] {σ : Type} [Source σ] {table : Table} (hs : table.sound = true)
    {R : List Glyph → Scanner σ → Prop} (hnil : Gives (R []) (readToken table) fun o s => o = none ∧ R [] s)
    (hcons : ∀ g w, (∀ x ∈ g :: w, x.Placed) → Gives (R (g :: w)) (readToken table) fun o s =>
      o = some (table.firstToken g w) ∧ R ((g :: w).drop (table.first g w).length) s)
    {w : List Glyph} (hw : ∀ x ∈ w, x.Placed) :
    Gives (R w) (readAll table) fun ts s => ts = table.divide w ∧ R [] s := by
  have hall : Meets (fun s : Logged (Scanner σ) => R w s.state) (gatherUntil measure (Turn.ofOption <$> readToken table)
      (Within.draws (.map (readToken_within table)))) fun r s =>
        ∃ u, r.2 = .ok u ∧ r.1 = table.divide w ∧ R [] s.state := by
    refine (Meets.gatherUntil (I := fun ts (s : Logged (Scanner σ)) =>
      ∃ v, (∀ x ∈ v, x.Placed) ∧ R v s.state ∧ ts ++ table.divide v = table.divide w)
      (Q := fun ts _ s => ts = table.divide w ∧ R [] s.state) fun ts => Meets.map ?_).pre fun s h => ⟨w, hw, h, rfl⟩
    rintro s ⟨v, hv, hr, heq⟩
    cases v with
    | nil =>
      obtain ⟨_, s', hread, rfl, hr'⟩ := hnil s hr
      rw [Table.divide_nil, List.append_nil] at heq
      exact ⟨none, s', hread, heq, hr'⟩
    | cons g v =>
      obtain ⟨_, s', hread, rfl, hr'⟩ := hcons g v hv s hr
      refine ⟨_, s', hread, _, fun x hx => hv x (List.mem_of_mem_drop hx), hr', ?_⟩
      rw [List.append_assoc, List.singleton_append, ← Table.divide_cons hs, heq]
  refine Meets.map (hall.bind fun r => ?_)
  rintro s ⟨_, hok, heq, hr⟩
  obtain ⟨ts, ending⟩ := r
  obtain rfl : ending = .ok _ := hok
  exact ⟨_, s, rfl, heq, hr⟩

namespace Replay

open Scanner

section

variable [Alphabet] {table : Table} {g : Glyph} {w : List Glyph} {n : Nat}

theorem readToken_nil : Gives (Ready []) (readToken table) fun o s => o = none ∧ Ready [] s := by
  rintro ⟨⟨⟨coming, name, finish⟩, d⟩, log⟩ ⟨rfl, rfl⟩
  exact ⟨none, _, rfl, rfl, rfl, rfl⟩

theorem readToken_first (hs : table.sound = true) (hw : ∀ x ∈ g :: w, x.Placed) :
    Gives (Ready (g :: w)) (readToken table) fun o s => o = some (table.firstToken g w) ∧
      (table.first g w).length ≤ (g :: w).length ∧ Ready ((g :: w).drop (table.first g w).length) s := by
  obtain ⟨c, hc⟩ := (hw g List.mem_cons_self).exists_value
  exact readToken_munch hs hw hc (by rw [Table.first, hc]; rfl)

/-- A token takes no more than there is. -/
theorem length_first_le (hs : table.sound = true) (hw : ∀ x ∈ g :: w, x.Placed) :
    (table.first g w).length ≤ (g :: w).length := by
  obtain ⟨_, _, -, -, hle, -⟩ := readToken_first hs hw ⟨.ofSource (ofGlyphs (g :: w) none), []⟩ ⟨rfl, rfl⟩
  exact hle

/-- If there is but one token, it takes all there is. -/
theorem eq_of_divide_singleton (hs : table.sound = true) (hw : ∀ x ∈ g :: w, x.Placed) {t : Token}
    (h : table.divide (g :: w) = [t]) : t = table.firstToken g w ∧ (table.first g w).length = (g :: w).length := by
  rw [Table.divide_cons hs, List.cons.injEq] at h
  refine ⟨h.1.symm, Nat.le_antisymm (length_first_le hs hw) (Nat.le_of_not_lt fun hlt => ?_)⟩
  have hone : 1 ≤ (table.divide ((g :: w).drop (table.first g w).length)).length :=
    Table.one_le_length_divide fun hd => by
      rw [List.drop_eq_nil_iff] at hd
      omega
  rw [h.2] at hone
  cases hone

theorem readAll_divide (hs : table.sound = true) (hw : ∀ x ∈ w, x.Placed) :
    Gives (Ready w) (readAll table) fun ts s => ts = table.divide w ∧ Ready [] s :=
  readAll_gives hs readToken_nil (fun _ _ hgw => (readToken_first hs hgw).post fun _ _ h => ⟨h.1, h.2.2⟩) hw

/-! ## What comes of reading -/

/-- The first token that is read from some glyphs, and the glyphs that are left. -/
def tokenOf (table : Table) (gs : List Glyph) (name : Option String) : Except Fault (Option Token × List Glyph) :=
  let (result, left, _) := (readToken table).run (.ofSource (ofGlyphs gs name))
  result.map fun o => (o, left.source.coming)

/-- The tokens that are read from some glyphs, up to the end. -/
def tokensOf (table : Table) (gs : List Glyph) (name : Option String) : Except Fault (List Token) :=
  ((readAll table).run (.ofSource (ofGlyphs gs name))).1

theorem tokenOf_cons (hs : table.sound = true) (name : Option String) (hw : ∀ x ∈ g :: w, x.Placed) :
    tokenOf table (g :: w) name =
      .ok (some (table.firstToken g w), (g :: w).drop (table.first g w).length) := by
  obtain ⟨_, hrun, rfl, -, -, hcoming⟩ :=
    ScanM.run_of_gives (readToken_first hs hw) (s := .ofSource (ofGlyphs (g :: w) name))
    ⟨rfl, rfl⟩
  unfold tokenOf
  dsimp only
  rw [hrun, hcoming]
  rfl

theorem tokensOf_eq (hs : table.sound = true) (name : Option String) (hw : ∀ x ∈ w, x.Placed) :
    tokensOf table w name = .ok (table.divide w) := by
  obtain ⟨_, hrun, rfl, -⟩ := ScanM.run_of_gives (readAll_divide hs hw) (s := .ofSource (ofGlyphs w name)) ⟨rfl, rfl⟩
  exact hrun

end

/-! ## The longest match -/

/-- **A token is the longest match, and nothing after it matters.** The first token of some glyphs is the first token
of all that is cut off behind it. It is the only token if the glyphs are cut off right behind it, and not if they are
cut off later. -/
theorem tokenOf_take [Alphabet] {table : Table} (ht : table ∈ Table.contexts) {w : List Glyph} (hw : ∀ g ∈ w, g.Placed)
    (hne : w ≠ []) (name : Option String) :
    ∃ (t : Token) (n : Nat), 1 ≤ n ∧ n ≤ w.length ∧ tokenOf table w name = .ok (some t, w.drop n) ∧
      (∀ m, n ≤ m → m ≤ w.length → tokenOf table (w.take m) name = .ok (some t, (w.take m).drop n)) ∧
      tokensOf table (w.take n) name = .ok [t] ∧
      ∀ m, n < m → m ≤ w.length → ∃ ts, tokensOf table (w.take m) name = .ok ts ∧ 2 ≤ ts.length := by
  have hs := Table.sound_of_mem ht
  obtain ⟨g, w, rfl⟩ := List.exists_cons_of_ne_nil hne
  have hle := Table.le_first (g := g) (w := w) hs
  have hcut (m : Nat) : ∀ x ∈ (g :: w).take m, x.Placed := fun x hx => hw x (List.mem_of_mem_take hx)
  refine ⟨table.firstToken g w, (table.first g w).length, hle, length_first_le hs hw, tokenOf_cons hs name hw,
    fun m hm _ => ?_, ?_, ?_⟩
  · obtain ⟨m, rfl⟩ := Nat.exists_eq_add_of_le' (Nat.le_trans hle hm)
    have hcons := tokenOf_cons hs name (hcut (m + 1))
    rw [Table.firstToken_take hs hw hm, Table.first_take hs hw hm] at hcons
    exact hcons
  · rw [tokensOf_eq hs name (hcut _), Table.divide_take hs hw (Nat.le_refl _), List.drop_eq_nil_of_le, Table.divide_nil]
    exact List.length_take_le _ _
  · intro m hm hm'
    refine ⟨_, tokensOf_eq hs name (hcut m), ?_⟩
    rw [Table.divide_take hs hw (Nat.le_of_lt hm), List.length_cons]
    -- some of what is cut off later is left over
    refine Nat.succ_le_succ (Table.one_le_length_divide fun hnil => ?_)
    rw [List.drop_eq_nil_iff, List.length_take, Nat.min_eq_left hm'] at hnil
    omega

/-- In a directive, a number sign that is written as a digraph, before a percent sign that could have begun another. -/
theorem tokenOf_take_sharp :
    Table.directive ∈ Table.contexts ∧ (∀ g ∈ Glyph.inscribe none .origin "%:%x".toList, g.Placed) ∧
    Glyph.inscribe none .origin "%:%x".toList ≠ [] ∧
    ∃ t : Token, t.kind = .operator ∧ t.value = "#" ∧
      (∀ m, 2 ≤ m → m ≤ 4 → tokenOf .directive ((Glyph.inscribe none .origin "%:%x".toList).take m) none =
        .ok (some t, ((Glyph.inscribe none .origin "%:%x".toList).take m).drop 2)) ∧
      tokensOf .directive ((Glyph.inscribe none .origin "%:%x".toList).take 2) none = .ok [t] := by
  have ht : Table.directive ∈ Table.contexts := by simp [Table.contexts]
  have hw : ∀ g ∈ Glyph.inscribe none .origin "%:%x".toList, g.Placed := fun _ => Glyph.placed_of_mem_inscribe
  have hne : Glyph.inscribe none .origin "%:%x".toList ≠ [] := by decide
  obtain ⟨t, n, -, hle, hall, hcut, hone, -⟩ := tokenOf_take ht hw hne none
  have hread : ((tokenOf .directive (Glyph.inscribe none .origin "%:%x".toList) none).toOption.map fun r =>
      (r.1.map fun t => (t.kind, t.value), r.2.length)) = some (some (.operator, "#"), 2) := by decide +kernel
  rw [hall] at hread
  simp only [Except.toOption, Option.map_some, Option.some.injEq, Prod.mk.injEq, List.length_drop,
    Glyph.length_inscribe] at hread hle
  obtain ⟨⟨hk, hv⟩, hn⟩ := hread
  obtain rfl : n = 2 := by
    rw [show "%:%x".toList.length = 4 from rfl] at hn
    omega
  exact ⟨ht, hw, hne, t, hk, hv, fun m hm hm' => hcut m hm (by rw [Glyph.length_inscribe]; exact hm'), hone⟩

end Replay

end Pretoken
