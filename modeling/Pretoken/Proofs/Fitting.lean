import Pretoken.Proofs.WholeText
import Pretoken.Table.Contexts

/-!
# What a table promises

A routine that gives back a character, or that collapses two, may only be named where such characters
have been read.

* `Routine.fits`, `Rule.fits`, `Action.fits`, `Table.fits`: a routine, a rule, an action or a table keeps
  to that.
* `Table.fits_text`, `Table.fits_directive`, `Table.fits_includeOperand`: the tables of all contexts do.
* **`Table.fits_of_lookup`**: so does whatever is found in such a table.
* **`Table.lookup_compile`**: looking up a character is finding the first case that contains it.
* `Table.Indexed`, `Table.indexed_compile`: the index of a table leads to its cases.
-/

namespace Pretoken

/-- The class holds inert characters only. -/
def CharSet.isInert (chars : CharSet) : Bool := !(['?', '\\', '\n'].any chars.contains)

/-- The kinds of names: an identifier, and what an identifier may become later. -/
def TokenKind.isName : TokenKind → Bool
  | identifier | reserved | directiveName => true
  | _ => false

theorem TokenKind.ne_of_isName {k k' : TokenKind} (h : k.isName = true) (h' : k'.isName = false) : k ≠ k' := by
  rintro rfl
  rw [h] at h'
  cases h'

theorem TokenKind.ne_identifier {k : TokenKind} (h : k.isName = false) : k ≠ .identifier :=
  (ne_of_isName rfl h).symm

/-- A routine can follow `n` characters of which the last is inert or not: if it gives the last one
back, that is inert and not the only one; if it collapses two, there are two; and only an identifier
has the kind of a name. -/
def Routine.fits (n : Nat) (inert : Bool) : Routine → Bool
  | universalName _ | ellipsis => inert && decide (2 ≤ n)
  | digraph _ => decide (2 ≤ n)
  | sharpDigraph kind => decide (2 ≤ n) && !kind.isName
  | literal _ kind | headerName _ kind => !kind.isName
  | _ => true

/-- A rule can follow `n` characters of which the last is inert or not. -/
def Rule.fits (n : Nat) (inert : Bool) : Rule → Bool
  | fixed kind => !kind.isName
  | routine r => r.fits n inert

mutual

/-- An action can follow `n` characters of which the last is inert or not. -/
def Action.fits (n : Nat) (inert : Bool) : Action → Bool
  | .finish rule => rule.fits n inert
  | .nested cases otherwise => otherwise.fits n inert && Case.allFit (n + 1) cases

/-- The actions of some cases can follow `n` characters. -/
def Case.allFit (n : Nat) : List Case → Bool
  | [] => true
  | ⟨chars, action⟩ :: cases => action.fits n chars.isInert && Case.allFit n cases

end

/-- The actions of a table can follow one character. -/
def Table.fits (table : Table) : Bool :=
  table.groups.all fun cases => cases.all fun case => case.action.fits 1 false

theorem Table.fits_text : Table.text.fits = true := by decide

theorem Table.fits_directive : Table.directive.fits = true := by decide

theorem Table.fits_includeOperand : Table.includeOperand.fits = true := by decide

/-- What holds of all cases of a table holds of the one that is found. -/
theorem Table.exists_of_lookup {table : Table} {p : Case → Bool} {c : Char} {action : Action}
    (h : (table.groups.all fun cases => cases.all p) = true) (ha : table.lookup c = some action) :
    ∃ case, p case = true ∧ case.action = action := by
  unfold lookup at ha
  split at ha
  · simp only [Option.bind_eq_bind, Option.bind_eq_some_iff, Option.pure_def, Option.some.injEq] at ha
    obtain ⟨⟨i, j⟩, -, cases, hc, case, hj, rfl⟩ := ha
    have hall := List.all_eq_true.1 h cases (List.mem_of_getElem? hc)
    exact ⟨case, List.all_eq_true.1 hall case (List.mem_of_getElem? hj), rfl⟩
  · cases ha

theorem Table.fits_of_lookup {table : Table} {c : Char} {action : Action} (h : table.fits = true)
    (ha : table.lookup c = some action) : action.fits 1 false = true := by
  obtain ⟨case, hcase, rfl⟩ := exists_of_lookup h ha
  exact hcase

/-! ## Indices -/

/-- Each entry of the index leads to a case. -/
def Table.Indexed (table : Table) : Prop :=
  ∀ (n : Nat) (hn : n < 128) (g i : UInt8), table.index[n] = some (g, i) →
    ∃ cases case, table.groups[g.toNat]? = some cases ∧ cases[i.toNat]? = some case

theorem find_of_findIdx? {cases : List Case} {c : Char} {j : Nat}
    (h : (cases.findIdx? fun case => case.chars.contains c) = some j) :
    ∃ case, cases[j]? = some case ∧ case.chars.contains c = true ∧ find cases c = some case.action := by
  obtain ⟨hj, hcontains, hbefore⟩ := List.findIdx?_eq_some_iff_getElem.1 h
  refine ⟨cases[j], List.getElem?_eq_getElem hj, hcontains, ?_⟩
  have hfind : (cases.find? fun case => case.chars.contains c) = some cases[j] :=
    List.find?_eq_some_iff_getElem.2 ⟨hcontains, j, hj, rfl, fun i hi => by simpa using hbefore i hi⟩
  rw [find, hfind, Option.map_some]

theorem find_of_findIdx?_none {cases : List Case} {c : Char}
    (h : (cases.findIdx? fun case => case.chars.contains c) = none) : find cases c = none := by
  rw [List.findIdx?_eq_none_iff] at h
  simpa [find] using h

/-- The numbers of a case lead to it, as long as a byte can hold them. It is the first that contains the character. -/
theorem Table.exists_of_position? {groups : List (List Case)} (hg : groups.length ≤ 256)
    (hc : ∀ cases ∈ groups, cases.length ≤ 256) {c : Char} {g i : UInt8} (h : position? groups c = some (g, i)) :
    ∃ cases case, groups[g.toNat]? = some cases ∧ cases[i.toNat]? = some case ∧ case.chars.contains c = true ∧
      groups.findSome? (find · c) = some case.action := by
  obtain ⟨before, ⟨cases, k⟩, after, hsplit, hfind, hnone⟩ := List.findSome?_eq_some_iff.1 h
  obtain ⟨j, hj, hpair⟩ := Option.map_eq_some_iff.1 hfind
  obtain ⟨rfl, rfl⟩ := Prod.mk.inj hpair
  obtain ⟨case, hcase, hcontains, haction⟩ := find_of_findIdx? hj
  have hmem : (cases, k) ∈ groups.zipIdx := by
    rw [hsplit]
    exact List.mem_append_right _ List.mem_cons_self
  have hk : groups[k]? = some cases := List.mem_zipIdx_iff_getElem?.1 hmem
  obtain ⟨hk', -⟩ := List.getElem?_eq_some_iff.1 hk
  obtain ⟨hj', -⟩ := List.getElem?_eq_some_iff.1 hcase
  have hlen := hc cases (List.mem_of_getElem? hk)
  have hkmod : k.toUInt8.toNat = k := Nat.mod_eq_of_lt (by omega)
  have hjmod : j.toUInt8.toNat = j := Nat.mod_eq_of_lt (by omega)
  refine ⟨cases, case, by rw [hkmod]; exact hk, by rw [hjmod]; exact hcase, hcontains, ?_⟩
  have hgroups : groups = before.map Prod.fst ++ cases :: after.map Prod.fst := by
    rw [← List.zipIdx_map_fst 0 groups, hsplit, List.map_append, List.map_cons]
  have hfirst : (before.map Prod.fst).findSome? (find · c) = none := by
    simp only [List.findSome?_eq_none_iff, List.forall_mem_map]
    exact fun x hx => find_of_findIdx?_none (Option.map_eq_none_iff.1 (hnone x hx))
  rw [hgroups, List.findSome?_append, hfirst, Option.none_or, List.findSome?_cons, haction]

/-- **A table finds the first case that contains the character**, if that belongs to ASCII, as long as a byte can
number the cases. -/
theorem Table.lookup_compile {groups : List (List Case)} (hg : groups.length ≤ 256)
    (hc : ∀ cases ∈ groups, cases.length ≤ 256) (c : Char) :
    (compile groups).lookup c = if c.toNat < 128 then groups.findSome? (find · c) else none := by
  unfold lookup
  split
  · simp only [compile, Vector.getElem_ofFn, Char.ofNat_toNat]
    cases hpos : position? groups c with
    | some p =>
      obtain ⟨cases, case, hcases, hcase, -, hfind⟩ := exists_of_position? hg hc hpos
      simp [hcases, hcase, hfind]
    | none =>
      refine (List.findSome?_eq_none_iff.2 fun cases hmem => ?_).symm
      obtain ⟨k, hk⟩ := List.getElem?_of_mem hmem
      have hentry := List.findSome?_eq_none_iff.1 hpos (cases, k) (List.mem_zipIdx_iff_getElem?.2 hk)
      exact find_of_findIdx?_none (Option.map_eq_none_iff.1 hentry)
  · rfl

/-- **The index of a compiled table leads to its cases**, as long as a byte can number them. -/
theorem Table.indexed_compile {groups : List (List Case)} (hg : groups.length ≤ 256)
    (hc : ∀ cases ∈ groups, cases.length ≤ 256) : (compile groups).Indexed := by
  intro n hn g i h
  rw [compile, Vector.getElem_ofFn] at h
  obtain ⟨cases, case, hcases, hcase, -⟩ := exists_of_position? hg hc h
  exact ⟨cases, case, hcases, hcase⟩

theorem Table.indexed_text : text.Indexed := indexed_compile (by decide) (by decide)

theorem Table.indexed_directive : directive.Indexed := indexed_compile (by decide) (by decide)

theorem Table.indexed_includeOperand : includeOperand.Indexed := indexed_compile (by decide) (by decide)

end Pretoken
