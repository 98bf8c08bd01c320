import Mathlib.Data.List.Basic
import Pretoken.Proofs.Retaking

/-!
# Giving back any number of glyphs

Glyphs that were taken from the stage for trigraphs can be given back, however many they are. The stage looks for
trigraphs among them again, next to each other and to what it has looked at before, and finds none: what a trigraph
stands for neither begins nor completes one, and a question mark that was let pass before begins none.

* `Source.reads`, `Source.giveBackAll`: some reads in a row, and giving back what they gave.
* `Trigraph.Renews`: a stage that leads to no trigraph after question marks where another leads to none.
* **`Upkeep.Steady.renews_giveBack`**: one glyph more that is given back comes again as it is.
* **`Upkeep.Steady.trigraph_giveBackAll`**: so does any number of them, over any steady source.
* **`Trigraph.reads_giveBackAll`**: the same over files, wherever reading has come to.
-/

namespace Pretoken

variable {σ : Type} [Source σ]

/-! ## Reads in a row -/

namespace Source

/-- Take so many glyphs. A failure is what came of a read like any other: the next one goes on after it. -/
def reads : Nat → ScanM σ (List (Except Fault Glyph))
  | 0 => pure []
  | n + 1 => do
    let r ← attempt take
    let rs ← reads n
    return r :: rs

/-- Give back some glyphs, the last one first, so that they come again in their order. -/
def giveBackAll : List Glyph → ScanM σ Unit
  | [] => pure ()
  | g :: gs => do
    giveBackAll gs
    giveBack g

variable {s s' s'' : Logged σ} {g : Glyph} {n : Nat} {rs : List (Except Fault Glyph)}

theorem reads_cons {r : Except Fault Glyph} (ht : attempt take s = .ok r s') (hr : reads n s' = .ok rs s'') :
    reads (n + 1) s = .ok (r :: rs) s'' := by
  rw [reads, bind_of_ok ht, bind_of_ok hr]
  rfl

/-- Every read comes to something. -/
theorem exists_reads (n : Nat) (s : Logged σ) : ∃ rs s', reads n s = .ok rs s' := by
  induction n generalizing s with
  | zero => exact ⟨[], s, rfl⟩
  | succ n ih =>
    cases ht : take s with
    | ok g s₁ =>
      obtain ⟨rs, s', hr⟩ := ih s₁
      exact ⟨_, s', reads_cons (attempt_of_ok ht) hr⟩
    | error e s₁ =>
      obtain ⟨rs, s', hr⟩ := ih s₁
      exact ⟨_, s', reads_cons (attempt_of_error ht) hr⟩

/-- What the first of some reads gave, and what the others gave after it. -/
theorem exists_of_reads_cons (h : reads (n + 1) s = .ok (.ok g :: rs) s'') :
    ∃ s', take s = .ok g s' ∧ reads n s' = .ok rs s'' := by
  cases ht : take s with
  | ok g' s₁ =>
    obtain ⟨rs', s₂, hr⟩ := exists_reads n s₁
    cases h.symm.trans (reads_cons (attempt_of_ok ht) hr)
    exact ⟨s₁, rfl, hr⟩
  | error e s₁ =>
    obtain ⟨rs', s₂, hr⟩ := exists_reads n s₁
    cases h.symm.trans (reads_cons (attempt_of_error ht) hr)

/-- Reads can be divided anywhere. -/
theorem reads_add (m n : Nat) : (reads (m + n) : ScanM σ _) = do
    let rs ← reads m
    let rs' ← reads n
    return rs ++ rs' := by
  induction m with
  | zero => simp [reads]
  | succ m ih => simp [Nat.succ_add, reads, ih, bind_assoc]

end Source

/-! ## What comes out of the stage for trigraphs -/

/-- What a trigraph stands for completes none. -/
theorem Trigraph.replacement?_of_replacement? {c v : Char} (h : replacement? c = some v) : replacement? v = none := by
  unfold replacement? at h
  split at h <;> cases h <;> rfl

namespace Trigraph

/-- What the stage looks for trigraphs in. -/
def lower (t : Logged (Trigraph σ)) : Logged σ := ⟨t.state.below, t.log⟩

variable {s u v : Logged σ} {t t' : Logged (Trigraph σ)} {g h : Glyph}

omit [Source σ] in
theorem onBelow_eq_ok_iff {α : Type} {m : ScanM σ α} {a : α} :
    onBelow m t = .ok a t' ↔ m (lower t) = .ok a (lower t') ∧ t'.state.enabled = t.state.enabled := by
  obtain ⟨⟨below, enabled⟩, log⟩ := t
  obtain ⟨⟨below', enabled'⟩, log'⟩ := t'
  unfold onBelow ScanM.onState onPart lower
  cases hm : m ⟨below, log⟩ with
  | ok b x =>
    obtain ⟨state, xlog⟩ := x
    simp only [EStateM.Result.ok.injEq, Logged.mk.injEq, mk.injEq]
    constructor
    · rintro ⟨rfl, ⟨rfl, rfl⟩, rfl⟩
      exact ⟨⟨rfl, rfl, rfl⟩, rfl⟩
    · rintro ⟨⟨rfl, rfl, rfl⟩, rfl⟩
      exact ⟨rfl, ⟨rfl, rfl⟩, rfl⟩
  | error e x => simp

theorem take_eq_ok_iff : Source.take t = .ok g t' ↔
    (if t.state.enabled then replaceNext else Source.take) (lower t) = .ok g (lower t') ∧
      t'.state.enabled = t.state.enabled := by
  rw [← onBelow_eq_ok_iff]
  change take t = _ ↔ _
  unfold take
  split <;> rfl

/-- The stage `v` can stand in for `t`: after question marks it leads to no trigraph where `t` leads to none. -/
structure Renews (t v : Logged (Trigraph σ)) : Prop where
  enabled : v.state.enabled = t.state.enabled
  mark : t.state.enabled = true → SparesMark (lower t) → SparesMark (lower v)
  marks : t.state.enabled = true → SparesMarks (lower t) → SparesMarks (lower v)

theorem Renews.refl (t : Logged (Trigraph σ)) : Renews t t := ⟨rfl, fun _ h => h, fun _ h => h⟩

theorem Replaced.sparesMark (hr : Replaced s g v) (hq : g.is '?' = true) : SparesMark v := by
  cases hr with
  | other run plain => rw [hq] at plain; cases plain
  | mark run _ look peeks spares => exact ⟨_, _, peeks, spares⟩
  | trigraph _ _ replaced made => rw [made, is_mark_merged replaced] at hq; cases hq

/-- Where one question mark makes no trigraph of what comes next, two make none of what is left after another. -/
theorem Replaced.sparesMarks (hr : Replaced s g v) (hq : g.is '?' = true) (hs : SparesMark s) : SparesMarks v := by
  obtain ⟨k, x, hpeeks, hmarks⟩ := hs
  cases hr with
  | other run plain => rw [hq] at plain; cases plain
  | mark run _ look peeks _ =>
    cases hpeeks.take.symm.trans run
    obtain ⟨l, y, hpeeksl, hl⟩ := hmarks hq
    cases hpeeksl.take.symm.trans look
    exact ⟨_, _, peeks, hl⟩
  | trigraph _ _ replaced made => rw [made, is_mark_merged replaced] at hq; cases hq

/-- What comes out of the stage completes a trigraph only if what goes in does. -/
theorem Replaced.completes_none (hr : Replaced s g v) (hs : SparesMarks s) :
    g.value?.bind replacement? = none := by
  obtain ⟨k, x, hpeeks, hk⟩ := hs
  cases hr with
  | other run _ => cases hpeeks.take.symm.trans run; exact hk
  | mark run _ _ _ _ => cases hpeeks.take.symm.trans run; exact hk
  | trigraph _ _ replaced made =>
    rw [made, Glyph.value?_merged]
    exact replacement?_of_replacement? replaced

end Trigraph

namespace Upkeep.Steady

open Source (Peeks)
open Trigraph (Renews Replaced lower)

variable {U : Upkeep σ} (S : U.Steady) {s v : Logged σ} {g : Glyph}

include S in
theorem replaced (hpop : U.Pops fun _ => True) (hs : U.Fine s.state) (hr : Trigraph.replaceNext s = .ok g v) :
    Replaced s g v := by
  rcases S.replaces hpop hs with ⟨g', v', hrun, hreplaced⟩ | ⟨e, u, hrun, -, -⟩
  · cases hr.symm.trans hrun
    exact hreplaced
  · cases hr.symm.trans hrun

include S in
/-- **One glyph more.** The glyph `g` came from `t`, and `v` can stand in for what was left. If it is given back to
`v`, it comes next, and what it is given back to can stand in for `t`. -/
theorem renews_giveBack (hpop : U.Pops fun _ => True) {t t' v : Logged (Trigraph σ)}
    (ht : U.trigraph.Fine t.state) (hv : U.trigraph.Fine v.state) (hrun : Source.take t = .ok g t')
    (hg : g.isEof = false) (hr : Renews t' v) :
    ∃ v', Source.giveBack g v = .ok () v' ∧ Source.take v' = .ok g v ∧ Renews t v' := by
  obtain ⟨hbelow, ht'⟩ := Trigraph.take_eq_ok_iff.1 hrun
  have hgood : U.Good g := (U.trigraph.take.ok ht hrun).1.good hg
  obtain ⟨x, hx, hagain⟩ := hpop (s := lower v) hv hgood trivial
  have hpeeks : Peeks x g (lower v) := peeks_of_giveBack hx hagain hg
  have henabled : v.state.enabled = t.state.enabled := hr.enabled.trans ht'
  have hreplaced (he : t.state.enabled = true) : Replaced (lower t) g (lower t') := by
    rw [if_pos he] at hbelow
    exact S.replaced hpop ht hbelow
  refine ⟨⟨⟨x.state, v.state.enabled⟩, x.log⟩, Trigraph.onBelow_eq_ok_iff.2 ⟨hx, rfl⟩,
    Trigraph.take_eq_ok_iff.2 ⟨?_, rfl⟩, henabled, fun he hs => ?_, fun he hs => ?_⟩
  · change (if v.state.enabled then Trigraph.replaceNext else Source.take) x = _
    rw [henabled]
    split
    · next he =>
      cases hq : g.is '?' with
      | false => exact replaceNext_of_ne hagain hq
      | true =>
        exact replaceNext_of_sparesMark hagain hq (hr.mark (ht'.trans he) ((hreplaced he).sparesMark hq))
    · exact hagain
  · exact ⟨g, lower v, hpeeks, fun hq => hr.marks (ht'.trans he) ((hreplaced he).sparesMarks hq hs)⟩
  · exact ⟨g, lower v, hpeeks, (hreplaced he).completes_none hs⟩

include S in
/-- **Glyphs that are given back come again**, however many they are, and leave the stage as it was left before. -/
theorem trigraph_giveBackAll (hpop : U.Pops fun _ => True) {gs : List Glyph} {t t' : Logged (Trigraph σ)}
    (ht : U.trigraph.Fine t.state) (hr : Source.reads gs.length t = .ok (gs.map .ok) t')
    (hg : ∀ g ∈ gs, g.isEof = false) :
    ∃ v, Source.giveBackAll gs t' = .ok () v ∧ U.trigraph.Fine v.state ∧
      Source.reads gs.length v = .ok (gs.map .ok) t' ∧ Renews t v := by
  induction gs generalizing t with
  | nil =>
    cases hr
    exact ⟨t', rfl, ht, rfl, .refl t'⟩
  | cons g gs ih =>
    obtain ⟨hg, hgs⟩ := List.forall_mem_cons.1 hg
    obtain ⟨t₁, h₁, hrest⟩ := Source.exists_of_reads_cons hr
    obtain ⟨hgood, hfine⟩ := U.trigraph.take.ok ht h₁
    obtain ⟨v, hv, hfv, hagain, hrenews⟩ := ih hfine hrest hgs
    obtain ⟨v', hv', htake, hrenews'⟩ := S.renews_giveBack hpop ht hfv h₁ hg hrenews
    refine ⟨v', ?_, (U.trigraph.giveBack (hgood.good hg)).ok hfv hv',
      Source.reads_cons (attempt_of_ok htake) hagain, hrenews'⟩
    rw [Source.giveBackAll, bind_of_ok hv, hv']

include S in
/-- The stage stands where it stood before the glyphs were read. -/
theorem location_giveBackAll (hpop : U.Pops fun _ => True) {gs : List Glyph} {t t' v : Logged (Trigraph σ)}
    (ht : U.trigraph.Fine t.state) (hr : Source.reads gs.length t = .ok (gs.map .ok) t')
    (hg : ∀ g ∈ gs, g.isEof = false) (hv : Source.giveBackAll gs t' = .ok () v) :
    Source.location v.state = Source.location t.state := by
  cases gs with
  | nil =>
    cases hr
    cases hv
    rfl
  | cons g gs =>
    obtain ⟨hg, hgs⟩ := List.forall_mem_cons.1 hg
    obtain ⟨t₁, h₁, hrest⟩ := Source.exists_of_reads_cons hr
    obtain ⟨hgood, hfine⟩ := U.trigraph.take.ok ht h₁
    obtain ⟨v₁, hv₁, -⟩ := S.trigraph_giveBackAll hpop hfine hrest hgs
    rw [Source.giveBackAll, bind_of_ok hv₁] at hv
    have hstart := (S.trigraph hpop).start_of_isEof ht h₁ hg
    exact Option.some.inj (((S.trigraph hpop).back (hgood.good hg) hv).symm.trans hstart)

end Upkeep.Steady

/-! ## Files -/

/-- Reading keeps up what taking keeps up, if failures keep it up as well. -/
theorem Upkeep.reads {U : Upkeep σ} (hU : ∀ {e s}, U.Failed e s → U.Fine s) (n : Nat) :
    ScanM.Fares U.Fine (Source.reads n) (fun _ => U.Fine) U.Failed := by
  induction n with
  | zero => exact .pure _ fun _ hs => hs
  | succ n ih =>
    have hread : ScanM.Fares U.Fine (attempt Source.take) (fun _ => U.Fine) U.Failed :=
      U.take.attempt.post fun r s hr => by
        cases r with
        | ok g => exact hr.2
        | error e => exact hU hr
    exact hread.bind fun r => ih.bind fun rs => .pure _ fun _ hs => hs

namespace Trigraph

/-- A stage over a file from which bytes arrive is fine, wherever reading has come to. -/
theorem fine_of_reads_ofFeed {feed : Feed} (h : feed.Flows) {name : Option String} {enabled : Bool} {n : Nat}
    {rs : List (Except Fault Glyph)} {t : Logged (Trigraph File)}
    (hr : Source.reads n ⟨⟨.ofFeed feed name, enabled⟩, []⟩ = .ok rs t) :
    (File.upkeep Glyph.closed_placed LineReader.lasts_flows).trigraph.Fine t.state := by
  have hstart : (File.upkeep Glyph.closed_placed LineReader.lasts_flows).trigraph.Fine
      ⟨.ofFeed feed name, enabled⟩ := ⟨nofun, h⟩
  exact (Upkeep.reads (fun hs => hs) n).ok hstart hr

/-- **Reads can be taken back at any depth.** Whatever bytes arrive, text or not, and wherever reading has come to:
if the next reads give glyphs and these are given back, the last one first, then the stage stands where it stood, and
the same reads give the same glyphs and leave it in the very state in which it was before it took them back. So all
further reads go on as they would have. -/
theorem reads_giveBackAll {feed : Feed} (h : feed.Flows) (name : Option String) (enabled : Bool) (n : Nat) :
    ∃ (before : List (Except Fault Glyph)) (t : Logged (Trigraph File)),
      Source.reads n ⟨⟨.ofFeed feed name, enabled⟩, []⟩ = .ok before t ∧
      ∀ (gs : List Glyph) (t' : Logged (Trigraph File)),
        Source.reads gs.length t = .ok (gs.map .ok) t' → (∀ g ∈ gs, g.isEof = false) →
        ∃ v, Source.giveBackAll gs t' = .ok () v ∧ Source.location v.state = Source.location t.state ∧
          Source.reads gs.length v = .ok (gs.map .ok) t' ∧
          ∀ m, Source.reads (gs.length + m) v = Source.reads (gs.length + m) t := by
  have S := File.steady Glyph.closed_placed
  have hpop : (File.upkeep Glyph.closed_placed LineReader.lasts_flows).Pops fun _ => True := File.pops _ _
  obtain ⟨before, t, ht⟩ := Source.exists_reads n (⟨⟨.ofFeed feed name, enabled⟩, []⟩ : Logged (Trigraph File))
  have hfine := fine_of_reads_ofFeed h ht
  refine ⟨before, t, ht, fun gs t' hr hg => ?_⟩
  obtain ⟨v, hv, -, hagain, -⟩ := S.trigraph_giveBackAll hpop hfine hr hg
  refine ⟨v, hv, S.location_giveBackAll hpop hfine hr hg hv, hagain, fun m => ?_⟩
  rw [Source.reads_add, bind_of_ok hagain, bind_of_ok hr]

/-- A question mark in front of a trigraph, and one behind it. When they are given back, the first one has what the
trigraph stands for behind it. -/
theorem reads_giveBackAll_trigraph :
    Feed.Flows [.bytes [97, 63, 63], .bytes [63, 61, 63]] ∧
    ∃ (q p : Glyph) (ps : List Glyph) (before : List (Except Fault Glyph)) (t t' v : Logged (Trigraph File)),
      [q, .merged '#' ps, p].map Glyph.value? = [some '?', some '#', some '?'] ∧
      Source.reads 1 ⟨⟨.ofFeed [.bytes [97, 63, 63], .bytes [63, 61, 63]] none, true⟩, []⟩ = .ok before t ∧
      Source.reads 3 t = .ok ([q, .merged '#' ps, p].map .ok) t' ∧
      Source.giveBackAll [q, .merged '#' ps, p] t' = .ok () v ∧
      Source.location v.state = Source.location t.state ∧
      Source.reads 3 v = .ok ([q, .merged '#' ps, p].map .ok) t' := by
  have h : Feed.Flows [.bytes [97, 63, 63], .bytes [63, 61, 63]] := by decide
  let place := Location.origin.right
  let q : Glyph := .plain '?' none (place 1)
  let p : Glyph := .plain '?' none (place 5)
  let ps : List Glyph := [.plain '?' none (place 2), .plain '?' none (place 3), .plain '=' none (place 4)]
  obtain ⟨before, t, ht, hall⟩ := reads_giveBackAll h none true 1
  obtain ⟨rs, t', hrs⟩ := Source.exists_reads 3 t
  have hrun : ((Source.reads (1 + 3)).run
      (⟨.ofFeed [.bytes [97, 63, 63], .bytes [63, 61, 63]] none, true⟩ : Trigraph File)).1 =
        .ok ([.plain 'a' none .origin, q, .merged '#' ps, p].map .ok) := by decide +kernel
  have hfirst : ((Source.reads 1).run
      (⟨.ofFeed [.bytes [97, 63, 63], .bytes [63, 61, 63]] none, true⟩ : Trigraph File)).1 =
        .ok [.ok (.plain 'a' none .origin)] := by decide +kernel
  have hjoined : Source.reads (1 + 3) (⟨⟨.ofFeed [.bytes [97, 63, 63], .bytes [63, 61, 63]] none, true⟩, []⟩ :
      Logged (Trigraph File)) = .ok (before ++ rs) t' := by
    rw [Source.reads_add, bind_of_ok ht, bind_of_ok hrs]
    rfl
  rw [ScanM.run_of_ok hjoined] at hrun
  rw [ScanM.run_of_ok ht] at hfirst
  cases hfirst
  obtain rfl : rs = [q, .merged '#' ps, p].map .ok := by simpa using hrun
  obtain ⟨v, hv, hplace, hagain, -⟩ := hall [q, .merged '#' ps, p] t' hrs (by decide)
  exact ⟨h, q, p, ps, _, t, t', v, rfl, ht, hrs, hv, hplace, hagain⟩

end Trigraph

end Pretoken
