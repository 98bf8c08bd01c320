import Pretoken.Fault

/-!
# Feeds of bytes

Bytes arrive in pieces, and a piece may be a failure instead. A `Feed` lists what is still to come.

* `Feed.read`: take at most so many bytes, all from the first piece.
* `Feed.size`: how many bytes are still to come.
-/

namespace Pretoken

/-- One piece of a feed. -/
inductive Supply where
  /-- Bytes to be handed out. An empty piece reads as an end of input for the moment. -/
  | bytes (content : List UInt8)
  /-- A failure that is reported once. -/
  | failure (kind : ReadErrorKind) (text : String)
deriving DecidableEq, Repr

/-- What is still to be read, in order. -/
abbrev Feed := List Supply

namespace Feed

/-- Take up to `room` bytes of the first piece. What is left of it stays first; a piece that is used
up is gone. A feed with nothing left gives no bytes, for ever. -/
def read (room : Nat) : EStateM ReadError Feed (List UInt8)
  | [] => .ok [] []
  | .failure kind text :: rest => .error (.device kind text) rest
  | .bytes bs :: rest =>
    match bs.drop room with
    | [] => .ok bs rest
    | b :: more => .ok (bs.take room) (.bytes (b :: more) :: rest)

/-- The number of bytes still to come. -/
def size : Feed → Nat
  | [] => 0
  | .failure _ _ :: rest => size rest
  | .bytes bs :: rest => bs.length + size rest

@[simp] theorem size_bytes (bs : List UInt8) (rest : Feed) :
    size (.bytes bs :: rest) = bs.length + size rest := rfl

/-- A read hands on the bytes that it takes from the feed. -/
theorem size_of_read_ok {room : Nat} {feed feed' : Feed} {bs : List UInt8}
    (h : read room feed = .ok bs feed') : feed'.size + bs.length = feed.size := by
  match feed, h with
  | [], h => cases h; rfl
  | .bytes cs :: rest, h =>
    rw [read] at h
    split at h
    · cases h; rw [size_bytes, Nat.add_comm]
    · next b more hd =>
      cases h
      rw [size_bytes, size_bytes, ← hd, List.length_take, List.length_drop]
      omega

/-- A read takes no more bytes than there is room for. -/
theorem length_le_of_read_ok {room : Nat} {feed feed' : Feed} {bs : List UInt8}
    (h : read room feed = .ok bs feed') : bs.length ≤ room := by
  match feed, h with
  | [], h => cases h; exact Nat.zero_le _
  | .bytes cs :: rest, h =>
    rw [read] at h
    split at h
    · next hd => cases h; exact List.drop_eq_nil_iff.1 hd
    · cases h; exact List.length_take_le _ _

end Feed

end Pretoken
