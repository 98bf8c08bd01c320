import Pretoken.Proofs.Fitting
import Pretoken.Proofs.Triple
import Pretoken.Scanner.Token

/-!
# Kinds that a table can give

The kind of a token is decided by the table of its context, whatever the source.

* `Routine.kinds`, `Rule.kinds`: the kinds that a routine or a rule can give.
* `Rule.pairKinds`: those of tokens in which a digraph was collapsed.
* `Action.gather`, `Table.gather`: the kinds of all rules of an action or of a table.
* **`Scanner.readRest_returns`**: a token is of a kind that its table can give.
-/

namespace Pretoken

/-! ## Rules -/

/-- The kinds that a routine can give. -/
def Routine.kinds : Routine → List TokenKind
  | blanks | directiveBlanks => [.delimiter]
  | blockComment | lineComment => [.comment]
  | literal _ kind | headerName _ kind | sharpDigraph kind => [kind]
  | identifier => [.identifier]
  | universalName _ => [.identifier, .unknown]
  | number => [.number]
  | ellipsis => [.punctuator, .operator]
  | digraph _ => [.punctuator]
  | shift _ => [.operator]

/-- The kinds that a rule can give. -/
def Rule.kinds : Rule → List TokenKind
  | fixed kind => [kind]
  | routine r => r.kinds

/-- The kinds that a rule can give after it has collapsed a digraph. -/
def Rule.pairKinds : Rule → List TokenKind
  | routine (.digraph _) => [.punctuator]
  | routine (.sharpDigraph kind) => [kind]
  | _ => []

/-! ## Tables -/

mutual

/-- The kinds of all rules of an action. -/
def Action.gather (f : Rule → List TokenKind) : Action → List TokenKind
  | .finish rule => f rule
  | .nested cases otherwise => f otherwise ++ Case.gather f cases

/-- The kinds of all rules of some cases. -/
def Case.gather (f : Rule → List TokenKind) : List Case → List TokenKind
  | [] => []
  | ⟨_, action⟩ :: cases => action.gather f ++ Case.gather f cases

end

/-- The kinds of all rules of a table. -/
def Table.gather (f : Rule → List TokenKind) (table : Table) : List TokenKind :=
  table.groups.flatMap (Case.gather f)

theorem Case.gather_of_mem {f : Rule → List TokenKind} {cases : List Case} {case : Case}
    (h : case ∈ cases) : case.action.gather f ⊆ Case.gather f cases := by
  induction cases with
  | nil => cases h
  | cons first cases ih =>
    obtain ⟨chars, action⟩ := first
    rw [Case.gather]
    rcases List.mem_cons.1 h with rfl | h
    · exact List.subset_append_left _ _
    · exact List.subset_append_of_subset_right _ (ih h)

theorem Table.gather_of_lookup {f : Rule → List TokenKind} {table : Table} {c : Char}
    {action : Action} (h : table.lookup c = some action) : action.gather f ⊆ table.gather f := by
  unfold lookup at h
  split at h
  · simp only [Option.bind_eq_bind, Option.bind_eq_some_iff, Option.pure_def, Option.some.injEq] at h
    obtain ⟨⟨i, j⟩, -, cases, hc, case, hj, rfl⟩ := h
    intro k hk
    exact List.mem_flatMap.2 ⟨cases, List.mem_of_getElem? hc,
      Case.gather_of_mem (List.mem_of_getElem? hj) hk⟩
  · cases h

/-- The index leads to a case that contains the character, if there are not too many cases to count. -/
theorem Table.exists_case_of_lookup {groups : List (List Case)} (hg : groups.length ≤ 256)
    (hc : ∀ cases ∈ groups, cases.length ≤ 256) {c : Char} {action : Action}
    (h : (compile groups).lookup c = some action) :
    ∃ cases ∈ groups, ∃ case ∈ cases, case.chars.contains c = true ∧ case.action = action := by
  unfold lookup at h
  split at h
  · simp only [compile, Vector.getElem_ofFn, Char.ofNat_toNat, Option.bind_eq_bind, Option.bind_eq_some_iff,
      Option.pure_def, Option.some.injEq] at h
    obtain ⟨⟨g, i⟩, hpos, cases, hcases, case, hcase, rfl⟩ := h
    obtain ⟨cases', case', hcases', hcase', hcontains, -⟩ := exists_of_position? hg hc hpos
    cases hcases.symm.trans hcases'
    cases hcase.symm.trans hcase'
    exact ⟨_, List.mem_of_getElem? hcases, _, List.mem_of_getElem? hcase, hcontains, rfl⟩
  · cases h

/-- The set has nothing in it but the character `x`. -/
def CharSet.isOnly (x : Char) : CharSet → Bool
  | .one c => c == x
  | _ => false

theorem CharSet.eq_of_isOnly {chars : CharSet} {x c : Char} (h : chars.isOnly x = true)
    (hc : chars.contains c = true) : c = x := by
  cases chars with
  | one a =>
    simp only [isOnly, contains, beq_iff_eq] at h hc
    rw [← hc, h]
  | of cs => cases h
  | range lo hi => cases h
  | union sets => cases h

/-- A kind that only the cases for `x` can give is found for `x` alone. -/
theorem Table.eq_of_lookup {groups : List (List Case)} (hg : groups.length ≤ 256)
    (hc : ∀ cases ∈ groups, cases.length ≤ 256) {k : TokenKind} {x c : Char} (hx : ∀ cases ∈ groups,
      ∀ case ∈ cases, k ∈ case.action.gather Rule.kinds → case.chars.isOnly x = true) {action : Action}
    (h : (compile groups).lookup c = some action) (hk : k ∈ action.gather Rule.kinds) : c = x := by
  obtain ⟨cases, hcases, case, hcase, hcontains, rfl⟩ := exists_case_of_lookup hg hc h
  exact CharSet.eq_of_isOnly (hx cases hcases case hcase hk) hcontains

/-- A kind that a token of ordinary text has: none that only directives have, and none that a token is
given later. -/
def TokenKind.isTextual : TokenKind → Bool
  | character | comment | delimiter | identifier | number | operator | punctuator | string
  | unknown => true
  | directive | directiveName | directiveEnd | filename | digits | reserved | standardHeader => false

theorem Table.kinds_text : ∀ k ∈ text.gather Rule.kinds, k.isTextual = true := by decide

/-- In ordinary text a digraph is a punctuator. -/
theorem Table.pairKinds_text : ∀ k ∈ text.gather Rule.pairKinds, k = .punctuator := by decide

/-! ## Runs -/

/-- Whatever `m` returns satisfies `q`. -/
def Returns {ε σ α : Type} (m : EStateM ε σ α) (q : α → Prop) : Prop :=
  ∀ s a s', m s = .ok a s' → q a

namespace Returns

variable {ε σ α β : Type} {q : β → Prop}

theorem pure {b : β} (h : q b) : Returns (pure b : EStateM ε σ β) q := by
  rintro s a s' ⟨⟩
  exact h

theorem bind {m : EStateM ε σ α} {f : α → EStateM ε σ β} (h : ∀ a, Returns (f a) q) :
    Returns (m >>= f) q := by
  intro s b s' hs
  change EStateM.bind m f s = _ at hs
  unfold EStateM.bind at hs
  split at hs
  · exact h _ _ _ _ hs
  · cases hs

/-- What is returned after something that has a property. -/
theorem andThen {m : EStateM ε σ α} {f : α → EStateM ε σ β} {p : α → Prop}
    (hm : Returns m p) (hf : ∀ a, p a → Returns (f a) q) : Returns (m >>= f) q := by
  intro s b s' hs
  change EStateM.bind m f s = _ at hs
  unfold EStateM.bind at hs
  split at hs
  · next a t ha => exact hf a (hm s a t ha) t b s' hs
  · cases hs

theorem meets {m : EStateM ε σ β} (h : Returns m q) {P : σ → Prop} {Q : β → σ → Prop}
    (hm : Meets P m Q) : Meets P m fun b s => q b ∧ Q b s := by
  intro s hs
  obtain ⟨b, s', hb, hq⟩ := hm s hs
  exact ⟨b, s', hb, h s b s' hb, hq⟩

end Returns

variable {σ : Type} [Source σ] [Alphabet]

theorem Routine.run_returns (r : Routine) :
    Returns (r.run : ScanM (Scanner σ) TokenKind) (· ∈ r.kinds) := by
  cases r with
  | universalName digits =>
    refine .bind fun b => ?_
    split
    · exact .bind fun _ => .pure (by simp [kinds])
    · exact .pure (by simp [kinds])
  | ellipsis =>
    refine .bind fun b => ?_
    split
    · exact .pure (by decide)
    · exact .bind fun _ => .pure (by decide)
  | shift c => exact .bind fun _ => .bind fun _ => .pure List.mem_cons_self
  | _ => exact .bind fun _ => .pure List.mem_cons_self

theorem Rule.run_returns (r : Rule) :
    Returns (r.run : ScanM (Scanner σ) TokenKind) (· ∈ r.kinds) := by
  cases r with
  | fixed kind => exact .pure List.mem_cons_self
  | routine r => exact r.run_returns

mutual

theorem Action.run_returns : (action : Action) →
    Returns (action.run : ScanM (Scanner σ) TokenKind) (· ∈ action.gather Rule.kinds)
  | .finish rule => rule.run_returns
  | .nested cases otherwise => .bind fun g => Case.choose_returns cases otherwise g

theorem Case.choose_returns : (cases : List Case) → (otherwise : Rule) → (g : Glyph) →
    Returns (Case.choose cases otherwise g : ScanM (Scanner σ) TokenKind)
      (· ∈ otherwise.kinds ++ Case.gather Rule.kinds cases)
  | [], otherwise, g => by
    unfold Case.choose
    refine .bind fun _ s k s' h => ?_
    exact List.mem_append_left _ (otherwise.run_returns s k s' h)
  | ⟨chars, action⟩ :: cases, otherwise, g => by
    unfold Case.choose
    split
    · refine .bind fun _ s k s' h => ?_
      have hk := Action.run_returns action s k s' h
      exact List.mem_append_right _ (List.mem_append_left _ hk)
    · intro s k s' h
      rcases List.mem_append.1 (Case.choose_returns cases otherwise g s k s' h) with hk | hk
      · exact List.mem_append_left _ hk
      · exact List.mem_append_right _ (List.mem_append_right _ hk)

end

namespace Scanner

/-- **A token is of a kind that its table can give**, or an identifier, or unknown. -/
theorem readRest_returns (table : Table) (lead : Char) :
    Returns (readRest table lead : ScanM (Scanner σ) TokenKind) fun k =>
      k ∈ table.gather Rule.kinds ∨ k = .identifier ∨ k = .unknown := by
  unfold readRest
  split
  · next action ha =>
    intro s k s' h
    exact .inl (Table.gather_of_lookup ha (action.run_returns s k s' h))
  · split
    · exact .bind fun _ => .pure (.inr (.inl rfl))
    · exact .pure (.inr (.inr rfl))

end Scanner

end Pretoken
