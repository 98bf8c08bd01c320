/-!
# Sets of code points as ranges

A property of characters is given as a list of inclusive ranges of code points; `inRanges` decides
membership.
-/

namespace Pretoken.Text

/-- Inclusive ranges of code points. -/
abbrev Ranges := List (Nat × Nat)

/-- Whether the code point of `c` lies in one of the ranges. -/
def inRanges (rs : Ranges) (c : Char) : Bool :=
  rs.any fun r => r.1 ≤ c.toNat && c.toNat ≤ r.2

end Pretoken.Text
