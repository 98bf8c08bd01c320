import Mathlib.Tactic.SplitIfs
import Pretoken.Source.Trigraph

/-!
# The phases as functions on whole texts

* `Text.replaceTrigraphs`, `Text.spliceLines`: what the phases do to the characters of a text.
* `Glyph.inscribe`: the glyphs of a text, each at its place.
* `Glyph.replaceTrigraphs`, `Glyph.joinLines`: the phases on glyphs, with what was replaced or deleted
  as parts.
* **`Glyph.spelling_replaceTrigraphs`**, **`Glyph.spelling_joinLines`**: the characters that these
  show are those of the phases on characters.
* **`Glyph.exists_pieces`**: what `Glyph.joinLines` deletes is a part of the glyph that comes next.
-/

namespace Pretoken

/-! ## Characters -/

namespace Text

/-- The trigraphs by their third characters. -/
def trigraphs : List (Char × Char) :=
  [('=', '#'), ('(', '['), (')', ']'), ('<', '\x7b'), ('>', '\x7d'), ('!', '|'), ('-', '~'),
   ('\'', '^'), ('/', '\\')]

/-- A text with its trigraphs replaced, from left to right and without overlap. -/
def replaceTrigraphs : List Char → List Char
  | '?' :: '?' :: c :: cs => match trigraphs.lookup c with
    | some v => v :: replaceTrigraphs cs
    | none => '?' :: replaceTrigraphs ('?' :: c :: cs)
  | c :: cs => c :: replaceTrigraphs cs
  | [] => []

/-- A text without its pairs of a backslash and a line feed, in one pass from left to right. -/
def spliceLines : List Char → List Char
  | '\\' :: '\n' :: cs => spliceLines cs
  | c :: cs => c :: spliceLines cs
  | [] => []

/-- The character begins neither a trigraph nor a splice and does not complete a splice. -/
def isInert (c : Char) : Bool := c != '?' && c != '\\' && c != '\n'

/-- A class without the three others holds inert characters only. -/
theorem isInert_of_class {p : Char → Bool} (h : ['?', '\\', '\n'].any p = false) {c : Char}
    (hc : p c = true) : isInert c = true := by
  simp only [List.any_cons, List.any_nil, Bool.or_false, Bool.or_eq_false_iff] at h
  simp only [isInert, Bool.and_eq_true, bne_iff_ne]
  refine ⟨⟨?_, ?_⟩, ?_⟩
  · rintro rfl
    rw [h.1] at hc
    cases hc
  · rintro rfl
    rw [h.2.1] at hc
    cases hc
  · rintro rfl
    rw [h.2.2] at hc
    cases hc

theorem spliceLines_cons {c : Char} {cs : List Char} (h : ¬ (c = '\\' ∧ cs.head? = some '\n')) :
    spliceLines (c :: cs) = c :: spliceLines cs := by
  rw [spliceLines]
  rintro ds rfl rfl
  exact h ⟨rfl, rfl⟩

theorem replaceTrigraphs_cons {c : Char} {cs : List Char}
    (h : ∀ x ds, c = '?' → cs = '?' :: x :: ds → trigraphs.lookup x = none) :
    replaceTrigraphs (c :: cs) = c :: replaceTrigraphs cs := by
  match c, cs with
  | c, [] => rw [replaceTrigraphs]; simp
  | c, [d] => rw [replaceTrigraphs]; simp
  | c, d :: x :: ds =>
    by_cases hc : c = '?' ∧ d = '?'
    · obtain ⟨rfl, rfl⟩ := hc
      rw [replaceTrigraphs, h x ds rfl rfl]
    · rw [replaceTrigraphs]
      rintro y es rfl hd
      exact hc ⟨rfl, (List.cons.inj hd).1⟩

theorem replaceTrigraphs_trigraph {x v : Char} (h : trigraphs.lookup x = some v) (cs : List Char) :
    replaceTrigraphs ('?' :: '?' :: x :: cs) = v :: replaceTrigraphs cs := by
  rw [replaceTrigraphs, h]

end Text

theorem Trigraph.replacement?_eq_lookup (c : Char) : replacement? c = Text.trigraphs.lookup c := by
  unfold replacement?
  split
  iterate 9 rfl
  simp_all [Text.trigraphs, List.lookup_cons, beq_eq_false_iff_ne.2]

/-- A trigraph stands neither for a question mark nor for a line feed. -/
theorem Trigraph.replacement?_ne {c v : Char} (h : replacement? c = some v) : v ≠ '?' ∧ v ≠ '\n' := by
  unfold replacement? at h
  split at h <;> simp_all <;> subst h <;> decide

theorem Trigraph.is_mark_merged {c v : Char} {gs : List Glyph} (h : replacement? c = some v) :
    (Glyph.merged v gs).is '?' = false := by
  rw [Glyph.is, Glyph.value?_merged]
  simpa using (replacement?_ne h).1

namespace Glyph

/-! ## Glyphs that lie somewhere -/

/-- The glyph is a character with a place in the text. -/
structure Placed (g : Glyph) : Prop where
  isEof : g.isEof = false
  start : g.start?.isSome
  stop : g.stop?.isSome

theorem placed_plain (c : Char) (name : Option String) (l : Location) : (plain c name l).Placed :=
  ⟨rfl, rfl, rfl⟩

theorem Placed.exists_value {g : Glyph} (h : g.Placed) : ∃ c, g.value? = some c :=
  exists_value_of_isEof h.isEof

theorem lastStop?_concat (gs : List Glyph) (g : Glyph) : lastStop? (gs ++ [g]) = g.stop? := by
  induction gs with
  | nil => rfl
  | cons a gs ih =>
    cases gs with
    | nil => rfl
    | cons b gs => exact ih

theorem checkParts_of_placed {gs : List Glyph} (hne : gs ≠ []) (h : ∀ g ∈ gs, g.Placed) :
    checkParts gs = .ok () := by
  have ht : (lastStop? gs).isSome := by
    rw [← List.dropLast_concat_getLast hne, lastStop?_concat]
    exact (h _ (List.getLast_mem hne)).stop
  obtain ⟨a, as, rfl⟩ := List.exists_cons_of_ne_nil hne
  have hs : (firstStart? (a :: as)).isSome := (h a (by simp)).start
  simp [checkParts, hs, ht]

/-- If glyphs can be merged at all, they are the parts. -/
theorem eq_of_merge {c : Char} {gs : List Glyph} {g : Glyph} (h : merge c gs = .ok g) : g = merged c gs := by
  unfold merge at h
  cases hc : checkParts gs <;> rw [hc] at h <;> cases h
  rfl

theorem merge_eq (c : Char) {gs : List Glyph} (hne : gs ≠ []) (h : ∀ g ∈ gs, g.Placed) :
    merge c gs = .ok (merged c gs) := by
  rw [merge, checkParts_of_placed hne h]
  rfl

/-- A glyph has a place if it was read as it stands, or if it could be put in the place of others. -/
theorem placed_iff {g : Glyph} : g.Placed ↔
    (∃ c name l, g = plain c name l) ∨ ∃ c parts, merge c parts = .ok g := by
  constructor
  · intro h
    cases g with
    | plain c name l => exact .inl ⟨c, name, l, rfl⟩
    | merged c parts =>
      have hs : (firstStart? parts).isSome := h.start
      have ht : (lastStop? parts).isSome := h.stop
      have hne : parts.isEmpty = false := by
        cases parts with
        | nil => cases hs
        | cons => rfl
      refine .inr ⟨c, parts, ?_⟩
      rw [merge, checkParts, hne, hs, ht]
      rfl
    | eof name parts => cases h.isEof
  · rintro (⟨c, name, l, rfl⟩ | ⟨c, parts, hm⟩)
    · exact placed_plain c name l
    · unfold merge checkParts at hm
      split_ifs at hm with h₁ h₂
      · cases hm
      · cases hm
        rw [Bool.and_eq_true] at h₂
        exact ⟨rfl, h₂.1, h₂.2⟩
      · cases hm

theorem placed_merged (c : Char) {gs : List Glyph} (hne : gs ≠ []) (h : ∀ g ∈ gs, g.Placed) :
    (merged c gs).Placed :=
  placed_iff.2 (.inr ⟨c, gs, merge_eq c hne h⟩)

theorem leaves_ne_nil : (g : Glyph) → g.start?.isSome → g.leaves ≠ []
  | plain .., _ => by simp [leaves]
  | merged _ (g :: gs), h => by
    have := leaves_ne_nil g h
    simp [leaves, leavesAll, this]
  | eof _ (g :: gs), h => by
    have := leaves_ne_nil g h
    simp [leaves, leavesAll, this]
  | merged _ [], h => by simp [start?, firstStart?] at h
  | eof _ [], h => by simp [start?, firstStart?] at h

/-! ## Glyphs of a text -/

/-- The glyphs of a text that starts at a location. -/
def inscribe (name : Option String) : Location → List Char → List Glyph
  | _, [] => []
  | l, c :: cs => plain c name l :: inscribe name (l.next c) cs

theorem placed_of_mem_inscribe {name : Option String} {l : Location} {cs : List Char} {g : Glyph}
    (h : g ∈ inscribe name l cs) : g.Placed := by
  induction cs generalizing l with
  | nil => simp [inscribe] at h
  | cons c cs ih =>
    rcases List.mem_cons.1 h with rfl | h
    · exact placed_plain c name l
    · exact ih h

@[simp] theorem spelling_inscribe (name : Option String) (l : Location) (cs : List Char) :
    spelling (inscribe name l cs) = cs := by
  induction cs generalizing l with
  | nil => rfl
  | cons c cs ih => simpa [inscribe, spelling] using ih (l.next c)

@[simp] theorem length_inscribe (name : Option String) (l : Location) (cs : List Char) :
    (inscribe name l cs).length = cs.length := by
  induction cs generalizing l with
  | nil => rfl
  | cons c cs ih => rw [inscribe, List.length_cons, List.length_cons, ih]

@[simp] theorem leavesAll_inscribe (name : Option String) (l : Location) (cs : List Char) :
    leavesAll (inscribe name l cs) = inscribe name l cs := by
  induction cs generalizing l with
  | nil => rfl
  | cons c cs ih => simp [inscribe, leavesAll, leaves, ih]

/-- A glyph of a text lies after the characters before it. -/
theorem getElem?_inscribe (name : Option String) (l : Location) (cs : List Char) (i : Nat) :
    (inscribe name l cs)[i]? = cs[i]?.map fun c => plain c name (l.after (cs.take i)) := by
  induction cs generalizing l i with
  | nil => simp [inscribe]
  | cons c cs ih =>
    cases i with
    | zero => simp [inscribe]
    | succ i => simp [inscribe, ih]

/-! ## Trigraphs -/

/-- What the trigraph stands for that the glyphs begin with, if they do. -/
def trigraphAt? : List Glyph → Option Char
  | a :: b :: c :: _ => if a.is '?' ∧ b.is '?' then c.value?.bind Trigraph.replacement? else none
  | _ => none

/-- The glyphs with their trigraphs replaced, each with its three glyphs as parts. -/
def replaceTrigraphs : List Glyph → List Glyph
  | a :: b :: c :: gs => match trigraphAt? (a :: b :: c :: gs) with
    | some v => merged v [a, b, c] :: replaceTrigraphs gs
    | none => a :: replaceTrigraphs (b :: c :: gs)
  | a :: gs => a :: replaceTrigraphs gs
  | [] => []

theorem trigraphAt?_of_ne {g : Glyph} (h : g.value? ≠ some '?') (gs : List Glyph) :
    trigraphAt? (g :: gs) = none := by
  have hg : g.is '?' = false := by rw [Bool.eq_false_iff, Ne, is_iff]; exact h
  unfold trigraphAt?
  split
  · next he =>
    obtain ⟨rfl, rfl⟩ := List.cons.inj he
    simp [hg]
  · rfl

theorem trigraphAt?_congr {g h : Glyph} (hv : g.value? = h.value?) (gs : List Glyph) :
    trigraphAt? (g :: gs) = trigraphAt? (h :: gs) := by
  match gs with
  | [] => rfl
  | [_] => rfl
  | _ :: _ :: _ => simp [trigraphAt?, is, hv]

theorem replaceTrigraphs_of_none {g : Glyph} {gs : List Glyph} (h : trigraphAt? (g :: gs) = none) :
    replaceTrigraphs (g :: gs) = g :: replaceTrigraphs gs := by
  match gs, h with
  | [], _ => rfl
  | [_], _ => rfl
  | _ :: _ :: _, h => rw [replaceTrigraphs, h]

theorem replaceTrigraphs_of_some {a b c : Glyph} {gs : List Glyph} {v : Char}
    (h : trigraphAt? (a :: b :: c :: gs) = some v) :
    replaceTrigraphs (a :: b :: c :: gs) = merged v [a, b, c] :: replaceTrigraphs gs := by
  rw [replaceTrigraphs, h]

theorem replaceTrigraphs_ne_nil (g : Glyph) (gs : List Glyph) : replaceTrigraphs (g :: gs) ≠ [] := by
  rw [replaceTrigraphs.eq_def]
  split
  · split <;> simp
  · simp
  · simp_all

theorem spelling_append (gs hs : List Glyph) : spelling (gs ++ hs) = spelling gs ++ spelling hs :=
  List.filterMap_append

theorem spelling_cons {g : Glyph} {c : Char} (h : g.value? = some c) (gs : List Glyph) :
    spelling (g :: gs) = c :: spelling gs := by
  rw [spelling, List.filterMap_cons, h]
  rfl

theorem exists_of_spelling {gs : List Glyph} (hp : ∀ g ∈ gs, g.Placed) {c : Char} {cs : List Char}
    (h : spelling gs = c :: cs) : ∃ g gs', gs = g :: gs' ∧ g.value? = some c ∧ spelling gs' = cs := by
  match gs with
  | [] => cases h
  | g :: gs =>
    obtain ⟨x, hx⟩ := (hp g (by simp)).exists_value
    rw [spelling_cons hx] at h
    cases h
    exact ⟨g, gs, rfl, hx, rfl⟩

/-- **On the characters that glyphs show, trigraphs are replaced.** -/
theorem spelling_replaceTrigraphs {gs : List Glyph} (h : ∀ g ∈ gs, g.Placed) :
    spelling (replaceTrigraphs gs) = Text.replaceTrigraphs (spelling gs) := by
  have value {g : Glyph} (hg : g ∈ gs) := (h g hg).exists_value
  fun_induction replaceTrigraphs gs with
  | case1 a b c gs v ht ih =>
    obtain ⟨⟨x, hx⟩, ⟨y, hy⟩, ⟨z, hz⟩⟩ := And.intro (value (g := a) (by simp))
      (And.intro (value (g := b) (by simp)) (value (g := c) (by simp)))
    simp only [trigraphAt?, is, hx, hy, hz, Option.bind_some, Trigraph.replacement?_eq_lookup] at ht
    split_ifs at ht with hq
    obtain ⟨rfl, rfl⟩ : x = '?' ∧ y = '?' := by simpa using hq
    rw [spelling_cons (value?_merged v _),
      ih (fun g hg => h g (by simp [hg])) fun hg => value (by simp [hg]), spelling_cons hx, spelling_cons hy,
      spelling_cons hz, Text.replaceTrigraphs_trigraph ht]
  | case2 a b c gs ht ih =>
    obtain ⟨x, hx⟩ := value (g := a) (by simp)
    rw [spelling_cons hx, ih (fun g hg => h g (by simp_all)) fun hg => value (by simp_all),
      spelling_cons hx, Text.replaceTrigraphs_cons]
    rintro z ds rfl hs
    obtain ⟨⟨y, hy⟩, ⟨w, hw⟩⟩ := And.intro (value (g := b) (by simp)) (value (g := c) (by simp))
    rw [spelling_cons hy, spelling_cons hw] at hs
    simp only [List.cons.injEq] at hs
    obtain ⟨rfl, rfl, rfl⟩ := hs
    simpa [trigraphAt?, is, hx, hy, hw, Trigraph.replacement?_eq_lookup] using ht
  | case3 a gs hn ih =>
    obtain ⟨x, hx⟩ := value (g := a) (by simp)
    rw [spelling_cons hx, ih (fun g hg => h g (by simp [hg])) fun hg => value (by simp [hg]),
      spelling_cons hx, Text.replaceTrigraphs_cons]
    rintro z ds rfl hs
    obtain _ | ⟨b, _ | ⟨c, gs⟩⟩ := gs
    · simp [spelling] at hs
    · obtain ⟨y, hy⟩ := value (g := b) (by simp)
      rw [spelling_cons hy] at hs
      exact absurd (List.cons.inj hs).2 (List.cons_ne_nil _ _).symm
    · exact (hn b c gs rfl).elim
  | case4 => rfl

theorem placed_of_mem_replaceTrigraphs {gs : List Glyph} (h : ∀ g ∈ gs, g.Placed) :
    ∀ g ∈ replaceTrigraphs gs, g.Placed := by
  fun_induction replaceTrigraphs gs with
  | case1 a b c gs v ht ih =>
    intro g hg
    rcases List.mem_cons.1 hg with rfl | hg
    · exact placed_merged v (by simp) fun p hp => h p (List.mem_append_left gs hp)
    · exact ih (fun p hp => h p (by simp [hp])) g hg
  | case2 a b c gs ht ih =>
    intro g hg
    rcases List.mem_cons.1 hg with rfl | hg
    · exact h g (by simp)
    · exact ih (fun p hp => h p (List.mem_cons_of_mem _ hp)) g hg
  | case3 a gs hn ih =>
    intro g hg
    rcases List.mem_cons.1 hg with rfl | hg
    · exact h g (by simp)
    · exact ih (fun p hp => h p (List.mem_cons_of_mem _ hp)) g hg
  | case4 => exact h

theorem leavesAll_replaceTrigraphs (gs : List Glyph) :
    leavesAll (replaceTrigraphs gs) = leavesAll gs := by
  fun_induction replaceTrigraphs gs with
  | case1 a b c gs v ht ih => simp [leavesAll, leaves, ih]
  | case2 a b c gs ht ih => rw [leavesAll, ih]; rfl
  | case3 a gs hn ih => rw [leavesAll, ih]; rfl
  | case4 => rfl

/-- The glyphs as they are after the first phase, with or without trigraphs. -/
def phaseOne (trigraphs : Bool) (gs : List Glyph) : List Glyph :=
  if trigraphs then replaceTrigraphs gs else gs

theorem placed_of_mem_phaseOne {trigraphs : Bool} {gs : List Glyph} (h : ∀ g ∈ gs, g.Placed) :
    ∀ g ∈ phaseOne trigraphs gs, g.Placed := by
  cases trigraphs with
  | false => exact h
  | true => exact placed_of_mem_replaceTrigraphs h

theorem spelling_phaseOne {trigraphs : Bool} {gs : List Glyph} (h : ∀ g ∈ gs, g.Placed) :
    spelling (phaseOne trigraphs gs) =
      if trigraphs then Text.replaceTrigraphs (spelling gs) else spelling gs := by
  cases trigraphs with
  | false => rfl
  | true => exact spelling_replaceTrigraphs h

theorem leavesAll_phaseOne (trigraphs : Bool) (gs : List Glyph) :
    leavesAll (phaseOne trigraphs gs) = leavesAll gs := by
  cases trigraphs with
  | false => rfl
  | true => exact leavesAll_replaceTrigraphs gs

/-! ## Line splices -/

/-- The glyph `g` with the glyphs `removed` in front of it as parts, if there are any. -/
def attach (removed : List Glyph) (g : Glyph) : Glyph :=
  match removed, g.value? with
  | r :: rs, some c => merged c (r :: rs ++ [g])
  | _, _ => g

/-- Whether the glyphs begin with a backslash and a line feed. -/
def startsSplice : List Glyph → Bool
  | b :: n :: _ => b.is '\\' && n.is '\n'
  | _ => false

/-- The glyphs that are left when all splices are deleted, each with what was deleted in front of it,
and what was deleted after the last; `removed` are glyphs deleted before. -/
def joinLines (removed : List Glyph) : List Glyph → List Glyph × List Glyph
  | b :: n :: gs =>
    if startsSplice (b :: n :: gs) then joinLines (removed ++ [b, n]) gs
    else (attach removed b :: (joinLines [] (n :: gs)).1, (joinLines [] (n :: gs)).2)
  | [g] => ([attach removed g], [])
  | [] => ([], removed)

@[simp] theorem attach_nil (g : Glyph) : attach [] g = g := rfl

@[simp] theorem value?_attach (removed : List Glyph) (g : Glyph) :
    (attach removed g).value? = g.value? := by
  unfold attach
  split
  · next hv => rw [hv, value?_merged]
  · rfl

theorem placed_attach {removed : List Glyph} {g : Glyph} (hr : ∀ r ∈ removed, r.Placed)
    (hg : g.Placed) : (attach removed g).Placed := by
  unfold attach
  split
  · refine placed_merged _ (by simp) fun p hp => ?_
    rcases List.mem_append.1 hp with hp | hp
    · exact hr p hp
    · rwa [List.mem_singleton.1 hp]
  · exact hg

theorem leaves_attach (removed : List Glyph) {g : Glyph} (hg : g.Placed) :
    (attach removed g).leaves = leavesAll removed ++ g.leaves := by
  obtain ⟨c, hc⟩ := hg.exists_value
  cases removed with
  | nil => rfl
  | cons r rs => simp [attach, hc, leaves, leavesAll]

/-- What the splicing stage makes of a glyph and of what it deleted in front of it. -/
theorem splice_eq {removed : List Glyph} {g : Glyph} (hr : ∀ r ∈ removed, r.Placed) (hg : g.Placed)
    (hne : removed ≠ []) : splice removed g = .ok (attach removed g) := by
  obtain ⟨c, hc⟩ := hg.exists_value
  obtain ⟨r, rs, rfl⟩ := List.exists_cons_of_ne_nil hne
  have ha : attach (r :: rs) g = merged c (r :: rs ++ [g]) := by simp [attach, hc]
  rw [splice, hc, ha]
  refine merge_eq c (by simp) fun p hp => ?_
  rcases List.mem_append.1 hp with hp | hp
  · exact hr p hp
  · rwa [List.mem_singleton.1 hp]

theorem joinLines_splice {b n : Glyph} (hb : b.is '\\') (hn : n.is '\n') (removed gs : List Glyph) :
    joinLines removed (b :: n :: gs) = joinLines (removed ++ [b, n]) gs := by
  rw [joinLines, if_pos (by simp [startsSplice, hb, hn])]

theorem joinLines_cons {g : Glyph} {gs : List Glyph} (h : startsSplice (g :: gs) = false)
    (removed : List Glyph) :
    joinLines removed (g :: gs) = (attach removed g :: (joinLines [] gs).1, (joinLines [] gs).2) := by
  match gs, h with
  | [], _ => rfl
  | n :: gs, h => rw [joinLines, h, if_neg (by decide)]

theorem startsSplice_of_ne {g : Glyph} (h : g.is '\\' = false) (gs : List Glyph) :
    startsSplice (g :: gs) = false := by
  cases gs <;> simp [startsSplice, h]

theorem startsSplice_congr {g h : Glyph} (hv : g.value? = h.value?) (gs : List Glyph) :
    startsSplice (g :: gs) = startsSplice (h :: gs) := by
  cases gs <;> simp [startsSplice, is, hv]

/-- The glyphs are pairs of a backslash and a line feed. -/
inductive Splices : List Glyph → Prop
  | nil : Splices []
  | pair {b n : Glyph} {gs : List Glyph} :
    b.is '\\' = true → n.is '\n' = true → Splices gs → Splices (b :: n :: gs)

theorem Splices.append {gs hs : List Glyph} (hg : Splices gs) (hh : Splices hs) :
    Splices (gs ++ hs) := by
  induction hg with
  | nil => exact hh
  | pair hb hn _ ih => exact .pair hb hn ih

/-- **What is deleted is a part of the glyph that comes next**, in order, and nothing else is changed:
the deleted pairs and the remaining glyphs are, one after the other, the given glyphs. -/
theorem exists_pieces (removed gs : List Glyph) :
    ∃ pieces : List (List Glyph × Glyph),
      (joinLines removed gs).1 = pieces.map (fun p => attach p.1 p.2) ∧
      pieces.flatMap (fun p => p.1 ++ [p.2]) ++ (joinLines removed gs).2 = removed ++ gs ∧
      (Splices removed → (∀ p ∈ pieces, Splices p.1) ∧ Splices (joinLines removed gs).2) := by
  fun_induction joinLines removed gs with
  | case1 removed b n gs hs ih =>
    obtain ⟨pieces, hw, hf, hp⟩ := ih
    refine ⟨pieces, hw, by rw [hf]; simp, fun hr => hp (hr.append ?_)⟩
    rw [startsSplice, Bool.and_eq_true] at hs
    exact .pair hs.1 hs.2 .nil
  | case2 removed b n gs hs ih =>
    obtain ⟨pieces, hw, hf, hp⟩ := ih
    obtain ⟨hall, htr⟩ := hp .nil
    refine ⟨(removed, b) :: pieces, by rw [hw]; rfl, ?_, fun hr => ⟨?_, htr⟩⟩
    · rw [List.flatMap_cons, List.append_assoc, hf]
      simp
    · simpa [hr] using hall
  | case3 removed g => exact ⟨[(removed, g)], rfl, by simp, fun hr => ⟨by simpa using hr, .nil⟩⟩
  | case4 removed => exact ⟨[], rfl, by simp, fun hr => ⟨by simp, hr⟩⟩

/-- Nothing is lost, and the order is kept. -/
theorem leavesAll_joinLines (removed : List Glyph) {gs : List Glyph} (h : ∀ g ∈ removed ++ gs, g.Placed) :
    leavesAll (joinLines removed gs).1 ++ leavesAll (joinLines removed gs).2 =
      leavesAll removed ++ leavesAll gs := by
  obtain ⟨pieces, hw, hf, -⟩ := exists_pieces removed gs
  rw [← leavesAll_append removed, ← hf, leavesAll_append, hw]
  congr 1
  rw [← hf] at h
  clear hw hf
  induction pieces with
  | nil => rfl
  | cons p pieces ih =>
    rw [List.map_cons, leavesAll, leaves_attach _ (h p.2 (by simp)),
      ih fun g hg => h g (by simp only [List.flatMap_cons, List.append_assoc]; simp_all)]
    simp [leavesAll]

theorem placed_of_mem_joinLines (removed : List Glyph) {gs : List Glyph}
    (h : ∀ g ∈ removed ++ gs, g.Placed) :
    ∀ g ∈ (joinLines removed gs).1, g.Placed := by
  obtain ⟨pieces, hw, hf, -⟩ := exists_pieces removed gs
  rw [← hf] at h
  rw [hw]
  intro g hg
  obtain ⟨p, hp, rfl⟩ := List.mem_map.1 hg
  have hsub : ∀ r ∈ p.1 ++ [p.2], r.Placed := fun r hr =>
    h r (List.mem_append_left _ (List.mem_flatMap.2 ⟨p, hp, hr⟩))
  exact placed_attach (fun r hr => hsub r (List.mem_append_left _ hr)) (hsub _ (by simp))

/-- What was deleted before lies in front of the first glyph that stays. -/
theorem leaves_head_joinLines {removed gs : List Glyph} (h : ∀ g ∈ gs, g.Placed) {g : Glyph}
    (hg : (joinLines removed gs).1.head? = some g) :
    (leavesAll removed).length < g.leaves.length := by
  fun_induction joinLines removed gs with
  | case1 removed b n gs hs ih =>
    have := ih (fun p hp => h p (by simp [hp])) hg
    rw [leavesAll_append, List.length_append] at this
    omega
  | case2 removed b n gs hs ih =>
    obtain rfl : attach removed b = g := by simpa using hg
    have hb := h b (by simp)
    rw [leaves_attach removed hb, List.length_append]
    exact Nat.lt_add_of_pos_right (List.length_pos_iff.2 (leaves_ne_nil b hb.start))
  | case3 removed b =>
    obtain rfl : attach removed b = g := by simpa using hg
    have hb := h b (by simp)
    rw [leaves_attach removed hb, List.length_append]
    exact Nat.lt_add_of_pos_right (List.length_pos_iff.2 (leaves_ne_nil b hb.start))
  | case4 removed => cases hg

/-- **On the characters that glyphs show, lines are spliced.** -/
theorem spelling_joinLines (removed : List Glyph) {gs : List Glyph} (h : ∀ g ∈ gs, g.Placed) :
    spelling (joinLines removed gs).1 = Text.spliceLines (spelling gs) := by
  fun_induction joinLines removed gs with
  | case1 removed b n gs hs ih =>
    rw [startsSplice, Bool.and_eq_true, is_iff, is_iff] at hs
    rw [ih fun g hg => h g (by simp [hg]), spelling_cons hs.1, spelling_cons hs.2, Text.spliceLines]
  | case2 removed b n gs hs ih =>
    obtain ⟨⟨x, hx⟩, ⟨y, hy⟩⟩ := And.intro (h b (by simp)).exists_value (h n (by simp)).exists_value
    rw [spelling_cons (by rw [value?_attach, hx]), ih fun g hg => h g (List.mem_cons_of_mem _ hg),
      spelling_cons hx, Text.spliceLines_cons]
    rw [spelling_cons hy]
    simpa [startsSplice, is, hx, hy] using hs
  | case3 removed g =>
    obtain ⟨x, hx⟩ := (h g (by simp)).exists_value
    rw [spelling_cons (by rw [value?_attach, hx]), spelling_cons hx, Text.spliceLines_cons]
    · rfl
    · simp [spelling]
  | case4 removed => rfl

end Glyph

end Pretoken
