import Pretoken.Proofs.Custody
import Pretoken.Proofs.Substitutions

/-!
# The books of the phases

A glyph in the place of a trigraph may be looked at, given back and taken again, and so may a glyph with deleted pairs
in front of it. What was replaced stays replaced: of all that can come back, only text that was read as it stands has
trigraphs left, and once the end is known, neither trigraphs nor splices are left. So the log stays in balance with what
has been taken, what is still to come, and the end.

* `Trigraph.Fetches`, `Trigraph.take_fetched`: what the lower stage does with glyphs and with the log.
* `Trigraph.Unread`, `Trigraph.Welcome`: what can be left to read, and what can be given back in front of it.
* **`Trigraph.Fetches.balanced`**: what the lower stage does keeps the balance.
* `Splice.spliceAll_deleted`: what is deleted is told of before it is attached to a glyph.
* `Phases.take_booked`, **`Phases.custody`**: the books of the phases.
-/

namespace Pretoken

open Glyph (trigraphAt? IsPlain Splices)

/-! ## Files -/

namespace File

/-- The file is about to give the glyphs `raw`, and this has been logged. -/
def Stands (name : Option String) (raw : List Glyph) (log : List Event) (s : Logged File) : Prop :=
  s.state.Holds name raw ∧ s.log = log

variable {name : Option String} {raw : List Glyph} {log : List Event}

theorem take_stands : Ensures (Stands name raw log) (Source.take : ScanM File Glyph) fun g s =>
    g = raw.head?.getD (.eof name []) ∧ Stands name raw.tail log s := by
  rintro s ⟨hs, rfl⟩ g s' h
  obtain ⟨_, _, heq, hg, hs'⟩ := take_gives s hs
  rw [h] at heq
  cases heq
  refine ⟨hg, hs', ?_⟩
  change take s = _ at h
  unfold take readGlyph at h
  dsimp only at h
  repeat' split at h
  all_goals cases h <;> rfl

theorem giveBack_stands (g : Glyph) :
    Ensures (Stands name raw log) (Source.giveBack g : ScanM File Unit) fun _ => Stands name (g :: raw) log := by
  rintro s ⟨hs, rfl⟩ u s' h
  change giveBack g s = _ at h
  unfold giveBack at h
  split at h
  · cases h
  · cases h
    obtain ⟨hn, cs, hr, rfl⟩ := hs
    exact ⟨⟨hn, cs, hr, rfl⟩, rfl⟩

theorem restore_stands (h : ∀ g ∈ raw, g.isEof = false) :
    Ensures (Stands name raw.tail log) (Source.restore (raw.head?.getD (.eof name [])) : ScanM File Unit)
      fun _ => Stands name raw log := by
  cases raw with
  | nil => exact .pure _ fun _ hs => hs
  | cons g raw =>
    simp only [List.head?_cons, Option.getD_some, Source.restore, h g (by simp), Bool.false_eq_true, if_false]
    exact giveBack_stands g

end File

/-! ## The trigraph stage -/

namespace Trigraph

/-- What the stage does with the glyphs that the file is about to give, and with the log. -/
inductive Fetches (name : Option String) (enabled : Bool) :
    List Glyph → List Event → Glyph → List Glyph → List Event → Prop
  | ending {log : List Event} : Fetches name enabled [] log (.eof name []) [] log
  | same {g : Glyph} {raw : List Glyph} {log : List Event} (h : enabled = true → trigraphAt? (g :: raw) = none) :
    Fetches name enabled (g :: raw) log g raw log
  | trigraph {a b k : Glyph} {raw : List Glyph} {log : List Event} {v : Char} (he : enabled = true)
    (h : trigraphAt? (a :: b :: k :: raw) = some v) :
    Fetches name enabled (a :: b :: k :: raw) log (.merged v [a, b, k]) raw
      (.trigraph (Glyph.merged v [a, b, k]).raw v :: log)

section Below

variable {name : Option String} {raw : List Glyph} {log : List Event}

/-- What comes of taking a glyph. -/
def Fetched (name : Option String) (enabled : Bool) (raw : List Glyph) (log : List Event) (g : Glyph)
    (s : Logged File) : Prop :=
  ∃ raw' log', Fetches name enabled raw log g raw' log' ∧ File.Stands name raw' log' s

theorem afterMarks_fetched {a b : Glyph} (h : ∀ g ∈ raw, g.isEof = false) (ha : a.is '?' = true)
    (hb : b.is '?' = true) :
    Ensures (File.Stands name raw log) (afterMarks a b : ScanM File Glyph) (Fetched name true (a :: b :: raw) log) := by
  refine File.take_stands.bind fun k => .of_prop fun hk => ?_
  split
  · next v hv =>
    -- the third glyph completes a trigraph
    cases raw with
    | nil => simp [hk] at hv
    | cons k' raw =>
      obtain rfl : k = k' := hk
      refine (Ensures.require (Q := fun g s => g = .merged v [a, b, k] ∧ File.Stands name raw log s)
        fun g s hm hs => ⟨Glyph.eq_of_merge hm, hs⟩).bind fun g => .of_prop ?_
      rintro rfl s ⟨hs, rfl⟩ g s' ⟨⟩
      exact ⟨raw, _, .trigraph rfl (by simp [trigraphAt?, ha, hb, hv]), hs, rfl⟩
  · next hv =>
    subst hk
    refine (File.restore_stands h).bind fun _ => (File.giveBack_stands b).bind fun _ => .pure _ fun s hs => ?_
    refine ⟨b :: raw, log, .same fun _ => ?_, hs⟩
    cases raw with
    | nil => rfl
    | cons k raw => simpa [trigraphAt?, ha, hb] using hv

theorem replaceNext_fetched (h : ∀ g ∈ raw, g.isEof = false) :
    Ensures (File.Stands name raw log) (replaceNext : ScanM File Glyph) (Fetched name true raw log) := by
  refine File.take_stands.bind fun a => .of_prop fun ha => ?_
  cases raw with
  | nil =>
    obtain rfl : a = .eof name [] := ha
    exact .pure _ fun s hs => ⟨[], log, .ending, hs⟩
  | cons a' raw =>
    obtain rfl : a = a' := ha
    have h' : ∀ g ∈ raw, g.isEof = false := fun g hg => h g (by simp [hg])
    simp only [List.tail_cons]
    split
    · next hm =>
      refine File.take_stands.bind fun b => .of_prop fun hb => ?_
      split
      · next hm' =>
        cases raw with
        | nil => simp [hb, Glyph.is] at hm'
        | cons b' raw =>
          obtain rfl : b = b' := hb
          exact afterMarks_fetched (fun g hg => h' g (List.mem_of_mem_tail hg)) hm hm'
      · next hm' =>
        subst hb
        refine (File.restore_stands h').bind fun _ => .pure _ fun s hs => ⟨raw, log, .same fun _ => ?_, hs⟩
        obtain _ | ⟨b, _ | ⟨k, raw⟩⟩ := raw
        · rfl
        · rfl
        · simp only [List.head?_cons, Option.getD_some, Bool.not_eq_true] at hm'
          simp [trigraphAt?, hm']
    · next hm =>
      refine .pure _ fun s hs => ⟨raw, log, .same fun _ => ?_, hs⟩
      exact Glyph.trigraphAt?_of_ne (fun hv => hm (Glyph.is_iff.2 hv)) raw

/-- The stage stands over a file for which `R` holds. -/
def Over (enabled : Bool) (R : Logged File → Prop) (s : Logged (Trigraph File)) : Prop :=
  s.state.enabled = enabled ∧ R ⟨s.state.below, s.log⟩

theorem onBelow_over {α : Type} {m : ScanM File α} {R : Logged File → Prop} {Q : α → Logged File → Prop}
    (hm : Ensures R m Q) (enabled : Bool) : Ensures (Over enabled R) (onBelow m) fun a => Over enabled (Q a) :=
  hm.onState (fun _ hs => hs.2) fun _ _ _ hs hq => ⟨hs.1, hq⟩

theorem take_fetched (enabled : Bool) (h : ∀ g ∈ raw, g.isEof = false) :
    Ensures (Over enabled (File.Stands name raw log)) (Source.take : ScanM (Trigraph File) Glyph)
      fun g => Over enabled (Fetched name enabled raw log g) := by
  have hplain : Ensures (File.Stands name raw log) (Source.take : ScanM File Glyph) (Fetched name false raw log) := by
    refine File.take_stands.post ?_
    rintro g t ⟨rfl, ht⟩
    cases raw with
    | nil => exact ⟨[], log, .ending, ht⟩
    | cons g raw => exact ⟨raw, log, .same nofun, ht⟩
  intro s hs
  change ∀ g s', take s = .ok g s' → _
  unfold take
  rw [hs.1]
  cases enabled with
  | true => exact onBelow_over (replaceNext_fetched h) true s hs
  | false => exact onBelow_over hplain false s hs

end Below

/-! ### What can be left to read -/

/-- The glyph can be given back in front of the glyphs `raw`. -/
structure Welcome (enabled : Bool) (back raw : List Glyph) (g : Glyph) : Prop where
  notEof : g.isEof = false
  trigraph : enabled = true → trigraphAt? (g :: raw) = none
  newline : back ≠ [] → g.is '\n' = false

/-- The glyphs `raw` can be left to read. Only text that was read as it stands has trigraphs left; and once the end is
known, which is then all of `back`, no trigraphs are left, and no line feeds either. -/
structure Unread (enabled : Bool) (back raw : List Glyph) : Prop where
  notEof : ∀ g ∈ raw, g.isEof = false
  trigraph : enabled = true → ∀ r, r <:+ raw → ∀ v, trigraphAt? r = some v → back = [] ∧ ∀ g ∈ r, g.IsPlain
  newline : back ≠ [] → ∀ g ∈ raw, g.is '\n' = false

variable {name : Option String} {enabled : Bool} {front back raw raw' : List Glyph} {log log' : List Event}
  {g h : Glyph} {extra : Nat}

theorem Unread.nil : Unread enabled back [] where
  notEof := nofun
  trigraph _ r hr v hv := by
    rw [List.suffix_nil.1 hr] at hv
    cases hv
  newline _ := nofun

theorem Unread.of_isPlain (hp : ∀ g ∈ raw, g.IsPlain) : Unread enabled [] raw where
  notEof g hg := by
    obtain ⟨c, name, l, rfl⟩ := hp g hg
    rfl
  trigraph _ r hr _ _ := ⟨rfl, fun g hg => hp g (hr.subset hg)⟩
  newline hb := absurd rfl hb

theorem Unread.suffix (hu : Unread enabled back raw) (hs : raw' <:+ raw) : Unread enabled back raw' where
  notEof g hg := hu.notEof g (hs.subset hg)
  trigraph he r hr := hu.trigraph he r (hr.trans hs)
  newline hb g hg := hu.newline hb g (hs.subset hg)

theorem Unread.cons (hu : Unread enabled back raw) (hg : Welcome enabled back raw g) :
    Unread enabled back (g :: raw) where
  notEof := List.forall_mem_cons.2 ⟨hg.notEof, hu.notEof⟩
  trigraph he r hr v hv := by
    rcases List.suffix_cons_iff.1 hr with rfl | hr
    · rw [hg.trigraph he] at hv
      cases hv
    · exact hu.trigraph he r hr v hv
  newline hb := List.forall_mem_cons.2 ⟨hg.newline hb, hu.newline hb⟩

theorem Welcome.congr (hg : Welcome enabled back raw g) (hv : h.value? = g.value?) : Welcome enabled back raw h where
  notEof := by
    rw [← Bool.not_eq_true', ← Glyph.isSome_value?, hv, Glyph.isSome_value?, hg.notEof]
    rfl
  trigraph he := (Glyph.trigraphAt?_congr hv raw).trans (hg.trigraph he)
  newline hb := by
    rw [Glyph.is, hv]
    exact hg.newline hb

theorem Welcome.of_value {c : Char} (hv : g.value? = some c) (hq : c ≠ '?') (hn : c ≠ '\n') :
    Welcome enabled back raw g where
  notEof := Glyph.isEof_eq_false_of_value? hv
  trigraph _ := Glyph.trigraphAt?_of_ne (by rwa [hv, Ne, Option.some.injEq]) raw
  newline _ := by
    rw [Glyph.is, hv]
    simpa using hn

/-! ### The books -/

/-- `front` has been taken and `back` is known to come last, and the log is in balance with these and all between them,
`extra` splices aside. -/
def Booked (name : Option String) (front back : List Glyph) (extra : Nat) (s : Logged (Trigraph File)) : Prop :=
  ∃ raw, s.state.below.Holds name raw ∧ Unread s.state.enabled back raw ∧ Balanced extra s.log (front ++ raw ++ back)

/-- The same, and the glyph `g` has been taken after `front` and can be given back. -/
def Lent (name : Option String) (front back : List Glyph) (extra : Nat) (g : Glyph) (s : Logged (Trigraph File)) :
    Prop :=
  ∃ raw, s.state.below.Holds name raw ∧ Unread s.state.enabled back raw ∧ Welcome s.state.enabled back raw g ∧
    Balanced extra s.log (front ++ g :: raw ++ back)

/-- The same, and nothing is left between `front` and `back`. -/
def Spent (name : Option String) (front back : List Glyph) (extra : Nat) (s : Logged (Trigraph File)) : Prop :=
  s.state.below.Holds name [] ∧ Balanced extra s.log (front ++ back)

theorem Spent.booked {s : Logged (Trigraph File)} (hs : Spent name front back extra s) :
    Booked name front back extra s :=
  ⟨[], hs.1, .nil, by rw [List.append_nil]; exact hs.2⟩

theorem Lent.booked {s : Logged (Trigraph File)} (hs : Lent name front back extra g s) :
    Booked name (front ++ [g]) back extra s := by
  obtain ⟨raw, hf, hu, -, hb⟩ := hs
  exact ⟨raw, hf, hu, by rwa [← List.append_cons]⟩

theorem Booked.lent {s : Logged (Trigraph File)} (hs : Booked name (front ++ [g]) back extra s) {c : Char}
    (hv : g.value? = some c) (hq : c ≠ '?') (hn : c ≠ '\n') : Lent name front back extra g s := by
  obtain ⟨raw, hf, hu, hb⟩ := hs
  exact ⟨raw, hf, hu, .of_value hv hq hn, by rwa [List.append_cons]⟩

/-- A line feed is not taken once the end is known. -/
theorem Lent.back_eq_nil {s : Logged (Trigraph File)} (hs : Lent name front back extra g s) (hg : g.is '\n' = true) :
    back = [] := by
  obtain ⟨raw, -, -, hw, -⟩ := hs
  by_contra hb
  rw [hw.newline hb] at hg
  cases hg

theorem exists_of_trigraphAt? {v : Char} (h : trigraphAt? raw = some v) : ∃ x, replacement? x = some v := by
  unfold trigraphAt? at h
  repeat' split at h
  · obtain ⟨x, -, hx⟩ := Option.bind_eq_some_iff.1 h
    exact ⟨x, hx⟩
  all_goals cases h

/-- **What the stage does keeps the balance.** A trigraph that is replaced has not been replaced before. -/
theorem Fetches.balanced (hd : Fetches name enabled raw log g raw' log') (hu : Unread enabled back raw)
    (hb : Balanced extra log (front ++ raw ++ back)) :
    (g = .eof name [] ∧ raw' = [] ∧ Balanced extra log' (front ++ back)) ∨
    (Unread enabled back raw' ∧ Welcome enabled back raw' g ∧ Balanced extra log' (front ++ g :: raw' ++ back)) := by
  cases hd with
  | ending => exact .inl ⟨rfl, rfl, by rwa [List.append_nil] at hb⟩
  | same h =>
    refine .inr ⟨hu.suffix (List.suffix_cons g raw'), ⟨?_, h, fun hne => ?_⟩, hb⟩
    · exact hu.notEof g (by simp)
    · exact hu.newline hne g (by simp)
  | @trigraph a b k _ _ v he h =>
    obtain ⟨rfl, hp⟩ := hu.trigraph he _ (List.suffix_refl _) v h
    obtain ⟨x, hx⟩ := exists_of_trigraphAt? h
    have hv := replacement?_ne hx
    refine .inr ⟨hu.suffix (List.suffix_append [a, b, k] raw'), .of_value (Glyph.value?_merged _ _) hv.1 hv.2, ?_⟩
    rw [List.append_nil] at hb ⊢
    exact hb.trigraph hp h

/-- What comes of taking a glyph: the end if nothing is left, or a glyph that can be given back. -/
def Took (name : Option String) (front back : List Glyph) (extra : Nat) (g : Glyph) (s : Logged (Trigraph File)) :
    Prop :=
  (g = .eof name [] ∧ Spent name front back extra s) ∨ Lent name front back extra g s

theorem take_took :
    Ensures (Booked name front back extra) (Source.take : ScanM (Trigraph File) Glyph)
      (Took name front back extra) := by
  rintro s ⟨raw, hf, hu, hb⟩ g s' h
  obtain ⟨he, raw', log', hd, hf', hl⟩ := take_fetched s.state.enabled hu.notEof s ⟨rfl, hf, rfl⟩ g s' h
  obtain rfl : s'.log = log' := hl
  rcases hd.balanced hu hb with ⟨hg, rfl, hb'⟩ | ⟨hu', hw, hb'⟩
  · exact .inl ⟨hg, hf', hb'⟩
  · rw [← he] at hu' hw
    exact .inr ⟨raw', hf', hu', hw, hb'⟩

theorem giveBack_booked :
    Ensures (Lent name front back extra g) (Source.giveBack g : ScanM (Trigraph File) Unit)
      fun _ => Booked name front back extra := by
  rintro s ⟨raw, hf, hu, hw, hb⟩ u s' h
  obtain ⟨he, hf', hl⟩ := onBelow_over (File.giveBack_stands g) s.state.enabled s ⟨rfl, hf, rfl⟩ u s' h
  refine ⟨g :: raw, hf', ?_, ?_⟩
  · rw [he]
    exact hu.cons hw
  · have hl : s'.log = s.log := hl
    rwa [hl]

theorem restore_booked :
    Ensures (Took name front back extra g) (Source.restore g : ScanM (Trigraph File) Unit)
      fun _ => Booked name front back extra := by
  unfold Source.restore
  rintro s (⟨rfl, hs⟩ | hs)
  · rintro _ _ ⟨⟩
    exact hs.booked
  · obtain ⟨_, -, -, hw, -⟩ := id hs
    rw [hw.notEof, if_neg (by decide)]
    exact giveBack_booked s hs

theorem Took.lent {s : Logged (Trigraph File)} (hs : Took name front back extra g s) {c : Char} (hg : g.is c = true) :
    Lent name front back extra g s := by
  rcases hs with ⟨rfl, -⟩ | hs
  · cases hg
  · exact hs

end Trigraph

/-! ## The splicing stage -/

namespace Splice

open Trigraph (Booked Lent Spent Took)

variable {name : Option String} {front back removed : List Glyph} {g : Glyph}

/-- The stage has deleted `removed`, which is told of but not yet attached to anything. -/
def Deleting (name : Option String) (front back removed : List Glyph) (s : Logged (Trigraph File)) : Prop :=
  (Splices removed.reverse ∧ (back ≠ [] → removed = [])) ∧
    Booked name (front ++ removed.reverse) back (removed.length / 2) s

/-- The stage has deleted `r.1` and taken `r.2` after it. -/
def Deleted (name : Option String) (front back : List Glyph) (r : List Glyph × Glyph) (s : Logged (Trigraph File)) :
    Prop :=
  (Splices r.1 ∧ (back ≠ [] → r.1 = [])) ∧ Took name (front ++ r.1) back (r.1.length / 2) r.2 s

theorem spliceTurn_deleted (removed : List Glyph) :
    Ensures (Deleting name front back removed) (spliceTurn removed : ScanM (Trigraph File) _)
      (Turn.Post (Deleting name front back) (Deleted name front back)) := by
  refine .of_prop fun hr => Trigraph.take_took.bind fun g => ?_
  have hdone (s : Logged (Trigraph File)) (hs : Took name (front ++ removed.reverse) back (removed.length / 2) g s) :
      Deleted name front back (removed.reverse, g) s := by
    refine ⟨⟨hr.1, fun hb => by rw [hr.2 hb]; rfl⟩, ?_⟩
    rwa [List.length_reverse]
  split
  · next hg =>
    refine (Trigraph.take_took.pre fun s hs => (hs.lent hg).booked).bind fun after => ?_
    split
    · next hn =>
      have hview (l : Location) : Ensures (Took name (front ++ removed.reverse ++ [g]) back (removed.length / 2) after)
          (ScanM.emit (.splice l)) fun _ => Deleting name front back (after :: g :: removed) := by
        rintro s hs _ _ ⟨⟩
        have hs := hs.lent hn
        obtain rfl := hs.back_eq_nil hn
        obtain ⟨raw, hf, hu, hb⟩ := hs.booked
        refine ⟨⟨?_, fun h => absurd rfl h⟩, raw, hf, hu, ?_⟩
        · simpa using hr.1.append (.pair hg hn .nil)
        · have hlen : (after :: g :: removed).length / 2 = removed.length / 2 + 1 := Nat.add_div_right _ Nat.two_pos
          rw [hlen]
          simpa using hb.splice l
      exact (Ensures.view _).bind fun l => (hview l).bind fun _ => .pure _ fun s hs => hs
    · refine Trigraph.restore_booked.bind fun _ => .pure _ fun s hs => hdone s (.inr ?_)
      exact hs.lent (Glyph.is_iff.1 hg) (by decide) (by decide)
  · exact .pure _ hdone

theorem spliceAll_deleted :
    Ensures (Booked name front back 0) (spliceAll : ScanM (Trigraph File) _) (Deleted name front back) := by
  refine (Ensures.loop spliceTurn_deleted []).pre fun s hs => ⟨⟨.nil, fun _ => rfl⟩, ?_⟩
  rwa [List.reverse_nil, List.append_nil]

theorem decorate_attach {P : Logged Phases → Prop} (hg : g.isEof = false) :
    Ensures P (decorate removed g) fun k s => k = Glyph.attach removed g ∧ P s := by
  obtain ⟨c, hc⟩ := Glyph.exists_value_of_isEof hg
  unfold decorate
  cases removed with
  | nil => exact .pure _ fun s hs => ⟨rfl, hs⟩
  | cons r rs =>
    refine .require fun k s hk hs => ⟨?_, hs⟩
    rw [Glyph.splice, hc] at hk
    rw [Glyph.eq_of_merge hk]
    simp [Glyph.attach, hc]

theorem decorate_ending {P : Logged Phases → Prop} :
    Ensures P (decorate removed (.eof name [])) fun k s => k = .eof name removed ∧ P s := by
  unfold decorate
  split
  · next he =>
    rw [List.isEmpty_iff.1 he]
    exact .pure _ fun s hs => ⟨rfl, hs⟩
  · refine .require fun k s hk hs => ⟨?_, hs⟩
    rw [Glyph.splice, Glyph.value?_eof] at hk
    unfold Glyph.endAfter at hk
    cases hc : Glyph.checkParts removed <;> rw [hc] at hk <;> cases hk
    rfl

end Splice

/-! ## The phases -/

namespace Phases

variable {name : Option String} {front gs : List Glyph} {g : Glyph} {ending : Option { g : Glyph // g.isEof = true }}

/-- The end, once it is known. -/
def backOf (ending : Option { g : Glyph // g.isEof = true }) : List Glyph := ending.toList.map (·.1)

/-- The end is this, and `R` holds of the lower stage. -/
def Above (ending : Option { g : Glyph // g.isEof = true }) (R : Logged (Trigraph File) → Prop) (s : Logged Phases) :
    Prop :=
  s.state.ending = ending ∧ R ⟨s.state.below, s.log⟩

theorem onBelow_above {α : Type} {m : ScanM (Trigraph File) α} {R : Logged (Trigraph File) → Prop}
    {Q : α → Logged (Trigraph File) → Prop} (hm : Ensures R m Q) :
    Ensures (Above ending R) (Splice.onBelow m) fun a => Above ending (Q a) :=
  hm.onState (fun _ hs => hs.2) fun _ _ _ hs hq => ⟨hs.1, hq⟩

/-- `front` has been taken, and the log is in balance with it, all that is left, and the end. -/
def Booked (name : Option String) (front : List Glyph) (s : Logged Phases) : Prop :=
  Above s.state.ending (Trigraph.Booked name front (backOf s.state.ending) 0) s

/-- The same, and the glyph `g` has been taken after `front` and can be given back. -/
def Lent (name : Option String) (front : List Glyph) (g : Glyph) (s : Logged Phases) : Prop :=
  Above s.state.ending (Trigraph.Lent name front (backOf s.state.ending) 0 g) s

/-- Nothing is left but the end `g`, which is known, and the log is in balance with `front` and the end. -/
def Closed (name : Option String) (front : List Glyph) (g : Glyph) (s : Logged Phases) : Prop :=
  ∃ h : g.isEof = true, Above (some ⟨g, h⟩) (Trigraph.Spent name front [g] 0) s

theorem Closed.booked {s : Logged Phases} (hs : Closed name front g s) : Booked name front s := by
  obtain ⟨h, he, hs⟩ := hs
  refine ⟨rfl, ?_⟩
  rw [he]
  exact hs.booked

theorem Lent.booked {s : Logged Phases} (hs : Lent name front g s) : Booked name (front ++ [g]) s :=
  ⟨rfl, hs.2.booked⟩

theorem lent_attach {removed : List Glyph} {s : Logged Phases} (hr : Splices removed)
    (hs : Above ending (Trigraph.Lent name (front ++ removed) (backOf ending) (removed.length / 2) g) s) :
    Lent name front (Glyph.attach removed g) s := by
  obtain ⟨rfl, raw, hf, hu, hw, hb⟩ := hs
  refine ⟨rfl, raw, hf, hu, hw.congr (Glyph.value?_attach _ _), ?_⟩
  rw [List.append_assoc, List.cons_append] at hb ⊢
  exact hb.attach hr hw.notEof

theorem closed_ending {removed : List Glyph} {s : Logged Phases} (hr : Splices removed)
    (hs : Above none (Trigraph.Spent name (front ++ removed) [] (removed.length / 2)) s) :
    Closed name front (.eof name removed) ⟨{ s.state with ending := some ⟨.eof name removed, rfl⟩ }, s.log⟩ := by
  obtain ⟨-, hf, hb⟩ := hs
  rw [List.append_nil] at hb
  exact ⟨rfl, rfl, hf, hb.endAfter hr⟩

/-- **The phases keep their books.** -/
theorem take_booked :
    Ensures (Booked name front) (Source.take : ScanM Phases Glyph) fun g s =>
      Closed name front g s ∨ (g.isEof = false ∧ Lent name front g s) := by
  change Ensures _ Splice.take _
  intro s hs
  refine ((onBelow_above Splice.spliceAll_deleted).bind fun r => ?_) s hs
  obtain ⟨removed, g⟩ := r
  refine (Ensures.view_eq _).bind fun ending => ?_
  rintro t ⟨rfl, he, ⟨hr, hnil⟩, ⟨rfl, ht⟩ | ht⟩
  · rw [he]
    simp only [Glyph.isEof]
    cases hx : s.state.ending with
    | some e =>
      -- the end is known, and nothing has been deleted since
      rw [hx] at ht hnil he
      obtain rfl : removed = [] := hnil (by simp [backOf])
      rintro _ _ ⟨⟩
      exact .inl ⟨e.2, he, by simpa [backOf] using ht⟩
    | none =>
      rw [hx] at ht he
      refine (Splice.decorate_ending (P := (· = t))).bind (fun k => .of_prop ?_) t rfl
      rintro rfl _ rfl k s' h
      cases h
      exact .inl (closed_ending hr ⟨he, ht⟩)
  · obtain ⟨_, -, -, hw, -⟩ := id ht
    simp only [hw.notEof]
    have hk : (Glyph.attach removed g).isEof = false := (hw.congr (Glyph.value?_attach _ _)).notEof
    refine (Splice.decorate_attach (P := (· = t)) hw.notEof).bind (fun k => .of_prop ?_) t rfl
    rintro rfl _ rfl k s' h
    rw [Splice.remember, dif_neg (by rw [hk]; decide)] at h
    cases h
    exact .inr ⟨hk, lent_attach hr ⟨he, ht⟩⟩

theorem giveBack_booked :
    Ensures (Lent name front g) (Source.giveBack g : ScanM Phases Unit) fun _ => Booked name front := by
  change Ensures _ (Splice.giveBack g) _
  intro s hs u s' h
  obtain ⟨he, hs'⟩ := onBelow_above Trigraph.giveBack_booked s hs u s' h
  refine ⟨rfl, ?_⟩
  rwa [he]

/-- **The books of the phases after `front`.** A glyph can be given back at any time unless it is a question mark or a
line feed. -/
def custody (name : Option String) (front : List Glyph) : Custody Phases where
  Holds gs := Booked name (front ++ gs.reverse)
  Ended gs s := ∃ e, Closed name (front ++ gs.reverse) e s
  Fresh g gs := Lent name (front ++ gs.reverse) g
  Free g := ∃ c, g.value? = some c ∧ c ≠ '?' ∧ c ≠ '\n'
  holds_of_ended := fun ⟨_, hs⟩ => hs.booked
  holds_of_fresh hs := by
    rw [List.reverse_cons, ← List.append_assoc]
    exact hs.booked
  fresh_of_free := by
    rintro g gs s ⟨c, hc, hq, hn⟩ hs
    rw [List.reverse_cons, ← List.append_assoc] at hs
    exact ⟨rfl, hs.2.lent hc hq hn⟩
  free_of_inert := by
    rintro g ⟨c, hc, hi⟩
    simp only [Text.isInert, Bool.and_eq_true, bne_iff_ne] at hi
    exact ⟨c, hc, hi.1.1, hi.2⟩
  free_of_backslash hb := ⟨'\\', Glyph.is_iff.1 hb, by decide, by decide⟩
  take gs := take_booked.post fun g s hs => hs.imp_left fun ⟨hg, h⟩ => ⟨hg, g, hg, h⟩
  giveBack g gs := giveBack_booked
  incompleteName := by
    rintro gs l s ⟨-, raw, hf, hu, hb⟩
    exact ⟨rfl, raw, hf, hu, hb.other rfl rfl⟩

end Phases

end Pretoken
