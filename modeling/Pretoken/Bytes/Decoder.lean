import Pretoken.Bytes.Feed
import Pretoken.Bytes.Utf8
import Pretoken.Progress

/-!
# Decoding UTF-8

A `Decoder` turns a feed of bytes into characters, one at a time. It holds the bytes that it has
taken from the feed and not yet decoded, at most `capacity` of them. A character's bytes are consumed
only once the whole character has been recognised, so a failed attempt can be repeated.

* `Decoder.fill`: have so many bytes pending, if the feed supplies them.
* `Decoder.read`: the next character, or none at the end of the input.
-/

namespace Pretoken

/-- Bytes waiting to be decoded, and the feed that supplies more. -/
structure Decoder where
  /-- Bytes taken from the feed and not yet decoded. -/
  pending : List UInt8
  /-- What is still to be read. -/
  feed : Feed
deriving DecidableEq, Repr

namespace Decoder

/-- How many bytes a decoder holds at most. -/
def capacity : Nat := 64

/-- A decoder that has read nothing yet. -/
def ofFeed (feed : Feed) : Decoder := ⟨[], feed⟩

/-- A bound on the number of characters still to come. -/
def size (d : Decoder) : Nat := d.pending.length + d.feed.size

/-- Unless `want` bytes are pending, read as many as there is room for; a read that gives none ends
the filling. -/
def fillTurn (want : Nat) : EStateM ReadError Decoder (Turn Unit Unit) := fun d =>
  if d.pending.length < want then
    match d.feed.read (capacity - d.pending.length) with
    | .ok [] feed => .ok (.done ()) { d with feed }
    | .ok (b :: bs) feed => .ok (.again ()) { pending := d.pending ++ b :: bs, feed }
    | .error e feed => .error e { d with feed }
  else .ok (.done ()) d

/-- A turn of the filling neither loses nor invents a byte. -/
theorem size_of_fillTurn_ok {want : Nat} {d d' : Decoder} {t : Turn Unit Unit}
    (h : fillTurn want d = .ok t d') :
    d'.size = d.size ∧ d'.feed.size + t.toll ≤ d.feed.size := by
  unfold fillTurn at h
  split at h
  · split at h
    · next hr => cases h; have := Feed.size_of_read_ok hr; simp_all [size, Turn.toll]
    · next hr =>
      cases h
      have := Feed.size_of_read_ok hr
      simp only [size, Turn.toll, List.length_append, List.length_cons] at *
      omega
    · cases h
  · cases h; simp [Turn.toll]

theorem fillTurn_draws (want : Nat) (_ : Unit) :
    Draws (fun d : Decoder => d.feed.size) (fillTurn want) := by
  intro d t d' h
  exact (size_of_fillTurn_ok h).2

/-- Read until `want` bytes are pending, or until a read gives none. -/
def fill (want : Nat) : EStateM ReadError Decoder Unit :=
  loop (fun d : Decoder => d.feed.size) (fun _ => fillTurn want) (fillTurn_draws want) ()

/-- Decode the first character of the pending bytes and consume its bytes. Of a sequence that is cut
short or wrong, nothing is consumed. -/
def takeChar : EStateM ReadError Decoder (Option Char) := fun d =>
  match Utf8.decodeHead d.pending with
  | .error e => .error e d
  | .ok none => .ok none d
  | .ok (some (c, rest)) => .ok (some c) { d with pending := rest }

/-- The next character, or none if the input ends here. -/
def read : EStateM ReadError Decoder (Option Char) := do
  fill 1
  fill (Utf8.width (← get).pending)
  takeChar

/-! ## Progress -/

/-- Filling neither loses nor invents a byte. -/
theorem size_of_fill_ok {want : Nat} {d d' : Decoder} (h : fill want d = .ok () d') :
    d'.size = d.size := by
  unfold fill at h
  generalize () = u at h
  induction u, d using loop_induct (fillTurn_draws want) with
  | step u d ih =>
    rw [loop_eq] at h
    split at h
    · next ht => rw [ih _ _ ht h, (size_of_fillTurn_ok ht).1]
    · next ht => cases h; exact (size_of_fillTurn_ok ht).1
    · cases h

theorem fill_within (want : Nat) : Within size 0 (fill want) fun _ => 0 := by
  intro d u d' h
  exact Nat.le_of_eq (size_of_fill_ok h)

/-- A character counts one, the end of the input nothing. -/
abbrev count (c : Option Char) : Nat := (Turn.ofOption c).toll

theorem takeChar_within : Within size 0 takeChar count := by
  intro d c d' h
  unfold takeChar at h
  split at h
  · cases h
  · cases h; exact Nat.le_refl _
  · next hd =>
    cases h
    have := Utf8.length_lt_of_decodeHead hd
    simp only [size, count, Turn.ofOption, Turn.toll]
    omega

/-- A character that is read uses up at least one byte. -/
theorem read_within : Within size 0 read count :=
  (fill_within 1).bind fun _ => Within.get.bind fun _ => (fill_within _).bind fun _ => takeChar_within

/-- All characters up to the end of the input. -/
def readAll : EStateM ReadError Decoder (List Char) :=
  Prod.fst <$> gather size (Turn.ofOption <$> read) (Within.draws (.map read_within))

end Decoder

end Pretoken
