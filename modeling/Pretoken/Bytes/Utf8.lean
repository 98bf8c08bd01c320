import Pretoken.Fault

/-!
# UTF-8 sequences

* `tails?`: the bytes that may follow a lead byte.
* **`decodeHead`**: the first character of a list of bytes and the bytes after it, or why there is
  none.
* `width`: how many bytes the first character needs.
-/

namespace Pretoken.Utf8

/-- The least and the greatest byte admitted at a place. -/
abbrev ByteRange := UInt8 × UInt8

/-- The bytes `80` to `BF`. -/
def continuation : ByteRange := (0x80, 0xBF)

/-- The ranges of the bytes that follow a lead byte; none if no sequence starts with it. The range
of the second byte rules out overlong forms, surrogates and numbers beyond the last code point. -/
def tails? (lead : UInt8) : Option (List ByteRange) :=
  if lead ≤ 0x7F then some []
  else if lead < 0xC2 then none
  else if lead ≤ 0xDF then some [continuation]
  else if lead = 0xE0 then some [(0xA0, 0xBF), continuation]
  else if lead = 0xED then some [(0x80, 0x9F), continuation]
  else if lead ≤ 0xEF then some [continuation, continuation]
  else if lead = 0xF0 then some [(0x90, 0xBF), continuation, continuation]
  else if lead ≤ 0xF3 then some [continuation, continuation, continuation]
  else if lead = 0xF4 then some [(0x80, 0x8F), continuation, continuation]
  else none

/-- How many of the bytes lie, from the first on, each in its range. -/
def agreeing : List ByteRange → List UInt8 → Nat
  | (lo, hi) :: rs, b :: bs => if lo ≤ b ∧ b ≤ hi then agreeing rs bs + 1 else 0
  | _, _ => 0

/-- The bits that a lead byte contributes when `n` bytes follow it. -/
def leadBits (n : Nat) (lead : UInt8) : Nat :=
  match n with
  | 0 => lead.toNat
  | 1 => lead.toNat % 32
  | 2 => lead.toNat % 16
  | _ => lead.toNat % 8

/-- The code point of a sequence: every byte after the lead contributes six bits. -/
def codePoint (lead : UInt8) (tail : List UInt8) : Nat :=
  tail.foldl (fun n b => n * 64 + b.toNat % 64) (leadBits tail.length lead)

/-- How many bytes the first character of `bs` takes, judged by its lead byte. A byte that leads
nothing is looked at alone. -/
def width : List UInt8 → Nat
  | [] => 0
  | lead :: _ => match tails? lead with
    | none => 1
    | some ranges => ranges.length + 1

/-- The first character of the bytes, and the bytes after it; none if there are no bytes. -/
def decodeHead : List UInt8 → Except ReadError (Option (Char × List UInt8))
  | [] => .ok none
  | lead :: tail =>
    match tails? lead with
    | none => .error (.badLead lead)
    | some ranges =>
      let n := agreeing ranges tail
      if tail.length < ranges.length then .error .truncated
      else if n < ranges.length then .error (.badSequence (n + 1))
      else .ok (some (Char.ofNat (codePoint lead (tail.take n)), tail.drop n))

/-- A character takes at least one byte. -/
theorem length_lt_of_decodeHead {bs rest : List UInt8} {c : Char}
    (h : decodeHead bs = .ok (some (c, rest))) : rest.length < bs.length := by
  match bs, h with
  | lead :: tail, h =>
    unfold decodeHead at h
    match ht : tails? lead with
    | none => simp [ht] at h
    | some ranges =>
      simp only [ht] at h
      by_cases h₁ : tail.length < ranges.length
      · simp [h₁] at h
      · by_cases h₂ : agreeing ranges tail < ranges.length
        · simp [h₁, h₂] at h
        · simp only [h₁, h₂, if_false, Except.ok.injEq, Option.some.injEq, Prod.mk.injEq] at h
          rw [← h.2, List.length_drop, List.length_cons]
          omega

end Pretoken.Utf8
