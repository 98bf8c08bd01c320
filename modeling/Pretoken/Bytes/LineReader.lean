import Pretoken.Bytes.Decoder

/-!
# Line ends

A line may end in a line feed, in a carriage return, or in both, the return first. A `LineReader`
gives one line feed for each of these. To tell a lone return from a pair it reads one character
ahead, and keeps it if it is not the line feed.

* `LineReader.read`: the next character, or none at the end of the input.
* `LineReader.readAll`: all characters up to the end.
-/

namespace Pretoken

/-- A decoder, and the character read ahead of it. -/
structure LineReader where
  /-- Where the characters come from. -/
  decoder : Decoder
  /-- A character that was read after a carriage return. -/
  ahead : Option Char
deriving DecidableEq, Repr

namespace LineReader

/-- A reader that has read nothing yet. -/
def ofFeed (feed : Feed) : LineReader := ⟨.ofFeed feed, none⟩

/-- A bound on the number of characters still to come. -/
def size (r : LineReader) : Nat := r.decoder.size + (if r.ahead.isSome then 1 else 0)

/-- The decoder's next character. -/
def decode : EStateM ReadError LineReader (Option Char) :=
  onPart decoder (fun d r => { r with decoder := d }) Decoder.read

/-- The next character, line ends not yet unified. -/
def nextRaw : EStateM ReadError LineReader (Option Char) := fun r =>
  match r.ahead with
  | some c => .ok (some c) { r with ahead := none }
  | none => decode r

/-- Keep a character that was read ahead. -/
def keep (c : Char) : EStateM ReadError LineReader Unit := fun r => .ok () { r with ahead := some c }

/-- What follows a carriage return: its line feed is dropped, any other character is kept. -/
def afterReturn : EStateM ReadError LineReader Unit := do
  match ← decode with
  | none => return
  | some c => if c = '\n' then return else keep c

/-- The next character. A carriage return, and the line feed that may follow it, is one line feed. -/
def read : EStateM ReadError LineReader (Option Char) := do
  match ← nextRaw with
  | none => return none
  | some c =>
    if c = '\r' then
      afterReturn
      return some '\n'
    else return some c

/-! ## Progress -/

open Decoder (count)

theorem decode_within : Within size 0 decode count :=
  .onPart 1 (fun r d => by simp only [size]; omega) Decoder.read_within (Nat.le_refl _)
    fun c => by simp only [Nat.one_mul]; exact Nat.le_refl _

theorem nextRaw_within : Within size 0 nextRaw count := by
  intro r c r' h
  unfold nextRaw at h
  split at h
  · next hr => cases h; simp [size, hr, count, Turn.ofOption, Turn.toll]
  · exact decode_within _ _ _ h

theorem keep_within (c : Char) : Within size 1 (keep c) fun _ => 0 := by
  rintro r u r' ⟨⟩
  simp [size]

theorem afterReturn_within : Within size 0 afterReturn fun _ => 0 :=
  decode_within.bind fun c => by
    match c with
    | none => exact .pure _ (Nat.le_refl _)
    | some c =>
      dsimp only
      split
      · exact .pure _ (Nat.zero_le _)
      · exact keep_within c

/-- A character that is read uses up at least one character of the decoder. -/
theorem read_within : Within size 0 read count :=
  nextRaw_within.bind fun c => by
    match c with
    | none => exact .pure _ (Nat.le_refl _)
    | some c =>
      dsimp only
      split
      · exact (afterReturn_within.weaken 1 (Nat.le_refl _) fun _ => Nat.le_refl _).bind fun _ =>
          .pure _ (Nat.le_refl _)
      · exact .pure _ (Nat.le_refl _)

/-! ## Reading to the end -/

/-- All characters up to the end of the input. -/
def readAll : EStateM ReadError LineReader (List Char) :=
  Prod.fst <$> gather size (Turn.ofOption <$> read) (Within.draws (.map read_within))

end LineReader

end Pretoken
