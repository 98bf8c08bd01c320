import Pretoken.Proofs.Fitting

/-!
# Indices and first matches

The index of a table is worked out once, for the characters of ASCII, and keeps the number of a group and of a case
in a byte each. What it leads to is what comes of looking through the cases of all groups, one after the other.

* `CharSet.Mem`, **`CharSet.contains_iff`**: being in a set, however deep sets are nested.
* `Case.Decides`: a case is the first one that a character is in.
* **`find_eq_some_iff`**, `find_eq_none_iff`: looking through cases finds the first one.
* `find_flatten`: looking through groups of cases is looking through them in a row.
* **`Table.lookup_compile_iff`**: so is looking a character up, as long as a byte can number groups and cases.
-/

namespace Pretoken

/-! ## Sets of characters -/

/-- The character `c` is in a set. -/
inductive CharSet.Mem (c : Char) : CharSet → Prop
  /-- It is the one of the set. -/
  | one : Mem c (.one c)
  /-- It is among those of the set. -/
  | of {cs : List Char} (mem : c ∈ cs) : Mem c (.of cs)
  /-- It lies between the bounds of the set, which belong to it. -/
  | range {lo hi : Char} (lower : lo ≤ c) (upper : c ≤ hi) : Mem c (.range lo hi)
  /-- It is in one of the sets that the set is made of. -/
  | union {sets : List CharSet} {set : CharSet} (part : set ∈ sets) (mem : Mem c set) : Mem c (.union sets)

instance : Membership Char CharSet := ⟨fun set c => set.Mem c⟩

mutual

/-- **The characters that a set contains are those in it.** -/
theorem CharSet.contains_iff {c : Char} : (set : CharSet) → (set.contains c = true ↔ c ∈ set)
  | .one a => by
    rw [contains, beq_iff_eq]
    exact ⟨fun h => h ▸ .one, fun h => by cases h; rfl⟩
  | .of cs => by
    rw [contains, List.contains_iff_mem]
    exact ⟨.of, fun h => by cases h; assumption⟩
  | .range lo hi => by
    rw [contains, Bool.and_eq_true, decide_eq_true_eq, decide_eq_true_eq]
    exact ⟨fun h => .range h.1 h.2, fun h => by cases h; exact ⟨‹_›, ‹_›⟩⟩
  | .union sets => by
    rw [contains, CharSet.anyContains_iff sets]
    exact ⟨fun ⟨set, hs, hc⟩ => .union hs hc, fun h => by cases h; exact ⟨_, ‹_›, ‹_›⟩⟩

theorem CharSet.anyContains_iff {c : Char} : (sets : List CharSet) →
    (CharSet.anyContains sets c = true ↔ ∃ set ∈ sets, c ∈ set)
  | [] => by simp [anyContains]
  | set :: sets => by
    rw [anyContains, Bool.or_eq_true, CharSet.contains_iff set, CharSet.anyContains_iff sets]
    simp

end

instance (c : Char) (set : CharSet) : Decidable (c ∈ set) := decidable_of_iff _ set.contains_iff

/-! ## First matches -/

/-- Of some cases, `case` is the first one that the character `c` is in. -/
def Case.Decides (case : Case) (cases : List Case) (c : Char) : Prop :=
  ∃ before after, cases = before ++ case :: after ∧ c ∈ case.chars ∧ ∀ other ∈ before, c ∉ other.chars

section Find

variable {cases : List Case} {c : Char} {action : Action}

/-- **Looking through cases finds what the first one says** that the character is in. -/
theorem find_eq_some_iff : find cases c = some action ↔ ∃ case : Case, case.Decides cases c ∧ case.action = action := by
  have hout (other : Case) : (!other.chars.contains c) = true ↔ c ∉ other.chars := by
    rw [Bool.not_eq_true', ← Bool.not_eq_true, CharSet.contains_iff]
  rw [find, Option.map_eq_some_iff]
  refine exists_congr fun case => and_congr_left fun _ => ?_
  rw [List.find?_eq_some_iff_append, CharSet.contains_iff]
  constructor
  · rintro ⟨hin, before, after, hsplit, hbefore⟩
    exact ⟨before, after, hsplit, hin, fun other ho => (hout other).1 (hbefore other ho)⟩
  · rintro ⟨before, after, hsplit, hin, hbefore⟩
    exact ⟨hin, before, after, hsplit, fun other ho => (hout other).2 (hbefore other ho)⟩

theorem find_eq_none_iff : find cases c = none ↔ ∀ case ∈ cases, c ∉ case.chars := by
  rw [find, Option.map_eq_none_iff, List.find?_eq_none]
  exact forall₂_congr fun case _ => not_congr case.chars.contains_iff

/-- Looking through groups, one after the other, is looking through all their cases in a row. -/
theorem find_flatten (groups : List (List Case)) (c : Char) :
    find groups.flatten c = groups.findSome? (find · c) := by
  rw [find, List.find?_flatten, List.map_findSome?]
  rfl

end Find

/-! ## Tables -/

namespace Table

/-- **Looking a character up is looking through all cases**, as long as a byte can number the groups and the cases of
each. The index never leads to a case that is not there. For a character of ASCII it leads to the first case, over all
groups in a row, that the character is in, and to none only if it is in no case; for any other it leads to none. -/
theorem lookup_compile_iff {groups : List (List Case)} (hg : groups.length ≤ 256)
    (hc : ∀ cases ∈ groups, cases.length ≤ 256) (c : Char) :
    (compile groups).Indexed ∧
    (compile groups).lookup c = (if isAscii c then find groups.flatten c else none) ∧
    (∀ action, (compile groups).lookup c = some action ↔
      isAscii c = true ∧ ∃ case : Case, case.Decides groups.flatten c ∧ case.action = action) ∧
    ((compile groups).lookup c = none ↔ (isAscii c = true → ∀ case ∈ groups.flatten, c ∉ case.chars)) := by
  have hlookup : (compile groups).lookup c = if isAscii c then find groups.flatten c else none := by
    rw [lookup_compile hg hc, find_flatten, isAscii]
    simp only [decide_eq_true_eq]
  refine ⟨indexed_compile hg hc, hlookup, fun action => ?_, ?_⟩
  · rw [hlookup, ← find_eq_some_iff]
    split
    · next ha => simp [ha]
    · next ha => simp [ha]
  · rw [hlookup, ← find_eq_none_iff]
    split
    · next ha => simp [ha]
    · next ha => simp [ha]

/-- The last case of the last group that bytes can number, with a set in a set, behind groups without cases. -/
theorem lookup_compile_iff_last :
    let last : Case := ⟨.union [.of [], .union [.range 'b' 'd', .one '#']], .finish identifier⟩
    let group : List Case := List.replicate 255 ⟨.one 'a', .finish operator⟩ ++ [last]
    let groups : List (List Case) := List.replicate 255 [] ++ [group]
    groups.length ≤ 256 ∧ (∀ cases ∈ groups, cases.length ≤ 256) ∧
      (compile groups).lookup '#' = some last.action := by
  intro last group groups
  have hgroup : group.length = 256 := by
    rw [List.length_append, List.length_replicate, List.length_singleton]
  have hg : groups.length = 256 := by
    rw [List.length_append, List.length_replicate, List.length_singleton]
  have hc : ∀ cases ∈ groups, cases.length ≤ 256 := by
    intro cases h
    rcases List.mem_append.1 h with h | h
    · rw [List.eq_of_mem_replicate h]
      exact Nat.zero_le _
    · exact Nat.le_of_eq (List.mem_singleton.1 h ▸ hgroup)
  have hsplit : groups.flatten = List.replicate 255 ⟨.one 'a', .finish operator⟩ ++ last :: [] := by
    rw [List.flatten_append, List.flatten_replicate_nil, List.flatten_singleton, List.nil_append]
  have hbefore : ∀ other ∈ List.replicate 255 (⟨.one 'a', .finish operator⟩ : Case), '#' ∉ other.chars := by
    intro other h
    rw [List.eq_of_mem_replicate h]
    decide
  have hlast : '#' ∈ last.chars := by decide
  exact ⟨Nat.le_of_eq hg, hc, ((lookup_compile_iff (Nat.le_of_eq hg) hc '#').2.2.1 last.action).2
    ⟨rfl, last, ⟨_, [], hsplit, hlast, hbefore⟩, rfl⟩⟩

/-- A byte that numbers one group more is zero, and leads to the first group. -/
example : position? (List.replicate 256 [] ++ [[⟨.one 'a', .finish operator⟩]]) 'a' = some (0, 0) := by
  decide +kernel

end Table

end Pretoken
