/-!
# Words of the language

* `Revision`: the revisions of the language, in order of their appearance.
* `keywordTable`: every keyword with the revision that introduced it; `Revision.keywords` are those
  of a revision.
* `directiveNames`: the names of directives.
-/

namespace Pretoken

/-- A revision of the language. -/
inductive Revision where
  | c89
  | c99
  | c11
deriving DecidableEq, Repr

namespace Revision

/-- The place of a revision in the order of appearance. -/
def rank : Revision → Nat
  | c89 => 0
  | c99 => 1
  | c11 => 2

/-- All revisions. -/
def all : List Revision := [c89, c99, c11]

/-- The name of a revision. -/
def name : Revision → String
  | c89 => "C89"
  | c99 => "C99"
  | c11 => "C11"

/-- The revision in force unless another is asked for. -/
instance : Inhabited Revision := ⟨c11⟩

end Revision

/-- Every keyword with the revision that introduced it. -/
def keywordTable : List (String × Revision) :=
  [("auto", .c89), ("break", .c89), ("case", .c89), ("char", .c89), ("const", .c89),
   ("continue", .c89), ("default", .c89), ("do", .c89), ("double", .c89), ("else", .c89),
   ("enum", .c89), ("extern", .c89), ("float", .c89), ("for", .c89), ("goto", .c89), ("if", .c89),
   ("int", .c89), ("long", .c89), ("register", .c89), ("return", .c89), ("short", .c89),
   ("signed", .c89), ("sizeof", .c89), ("static", .c89), ("struct", .c89), ("switch", .c89),
   ("typedef", .c89), ("union", .c89), ("unsigned", .c89), ("void", .c89), ("volatile", .c89),
   ("while", .c89), ("inline", .c99), ("restrict", .c99), ("_Bool", .c99), ("_Complex", .c99),
   ("_Imaginary", .c99), ("_Alignas", .c11), ("_Alignof", .c11), ("_Atomic", .c11),
   ("_Generic", .c11), ("_Noreturn", .c11), ("_Static_assert", .c11), ("_Thread_local", .c11)]

/-- The keywords of a revision: those that it or an earlier one introduced. -/
def Revision.keywords (r : Revision) : List String :=
  (keywordTable.filter fun entry => entry.2.rank ≤ r.rank).map Prod.fst

/-- Whether a word is a keyword of a revision. -/
def Revision.isKeyword (r : Revision) (word : String) : Bool :=
  keywordTable.any fun entry => entry.1 == word && entry.2.rank ≤ r.rank

/-- The names that may follow the number sign of a directive. -/
def directiveNames : List String :=
  ["include", "define", "undef", "if", "ifdef", "ifndef", "elif", "else", "endif", "line", "error",
   "pragma"]

/-- Whether a word names a directive. -/
def isDirectiveName (word : String) : Bool := directiveNames.contains word

/-- The words of a list in ascending order of their characters, each once. -/
def sortedWords (words : List String) : List String :=
  (words.mergeSort fun a b => a ≤ b).eraseDups

end Pretoken
