import Pretoken.Bytes.Decoder

/-!
# Buffers

The bytes that a decoder has taken from its feed lie in an array of fixed length, between two marks. Here is
decoding as it is done there: each place that is looked at or written to is checked to lie in the array, and each
difference is checked not to be negative.

* `Buffer.slice`, `Buffer.byteAt`, `Buffer.minus`: the checks.
* `Buffer.shift`, `Buffer.fill`: make room, and have so many bytes between the marks, if the feed supplies them.
* `Buffer.read`: the next character, or none at the end of the input.
-/

namespace Pretoken

/-- Why a buffer gave no character. -/
inductive Mishap where
  /-- A place outside the array, or a negative difference. -/
  | outOfRange
  /-- A sequence of bytes without a character. -/
  | noCharacter
  /-- The bytes could not be read or decoded. -/
  | failed (error : ReadError)
deriving DecidableEq, Repr

/-- An array of bytes, and the feed that supplies more. -/
structure Buffer where
  /-- The array. -/
  bytes : List UInt8
  /-- The place of the first byte to be decoded. -/
  start : Nat
  /-- The place after the last byte to be decoded. -/
  stop : Nat
  /-- What is still to be read. -/
  feed : Feed
deriving DecidableEq, Repr

namespace Buffer

/-- A buffer into which nothing has been read. -/
def ofFeed (feed : Feed) : Buffer := ⟨.replicate Decoder.capacity 0, 0, 0, feed⟩

/-! ## Checks -/

/-- The bytes from `lo` up to `hi`, which has to be a range within the array. -/
def slice (bytes : List UInt8) (lo hi : Nat) : Except Mishap (List UInt8) :=
  if lo ≤ hi ∧ hi ≤ bytes.length then .ok ((bytes.take hi).drop lo) else .error .outOfRange

/-- The byte at a place, which has to be one of the array. -/
def byteAt (bytes : List UInt8) (i : Nat) : Except Mishap UInt8 :=
  match bytes[i]? with
  | some b => .ok b
  | none => .error .outOfRange

/-- The difference of two numbers, which must not be negative. -/
def minus (m n : Nat) : Except Mishap Nat := if n ≤ m then .ok (m - n) else .error .outOfRange

/-- Go on with what was checked. -/
def require {α : Type} (r : Except Mishap α) : EStateM Mishap Buffer α := fun b =>
  match r with
  | .ok a => .ok a b
  | .error e => .error e b

/-- How many bytes there are to be decoded. -/
def waiting : EStateM Mishap Buffer Nat := fun b => require (minus b.stop b.start) b

/-! ## Filling -/

/-- Move the bytes to be decoded to the front of the array. -/
def shift : EStateM Mishap Buffer Unit := do
  let b ← get
  let moved ← require (slice b.bytes b.start b.stop)
  let stop ← waiting
  set { b with bytes := moved ++ b.bytes.drop moved.length, start := 0, stop }

/-- Read into the rest of the array; a read that gives none is the last. -/
def refill : EStateM Mishap Buffer (Turn Unit Unit) := fun b =>
  match slice b.bytes b.stop Decoder.capacity with
  | .error e => .error e b
  | .ok room =>
    match b.feed.read room.length with
    | .ok [] feed => .ok (.done ()) { b with feed }
    | .ok (x :: xs) feed => .ok (.again ()) { b with
        bytes := b.bytes.take b.stop ++ (x :: xs) ++ b.bytes.drop (b.stop + (x :: xs).length)
        stop := b.stop + (x :: xs).length
        feed }
    | .error e feed => .error (.failed e) { b with feed }

/-- Unless there are `want` bytes to be decoded, read more. -/
def fillTurn (want : Nat) : EStateM Mishap Buffer (Turn Unit Unit) := do
  if (← waiting) < want then refill else return .done ()

theorem refill_draws : Draws (fun b : Buffer => b.feed.size) refill := by
  intro b t b' h
  unfold refill at h
  split at h
  · cases h
  · split at h
    · cases h
    · next x xs feed hr =>
      cases h
      have := Feed.size_of_read_ok hr
      simp only [List.length_cons] at this ⊢
      omega
    · cases h

theorem waiting_state {b b' : Buffer} {n : Nat} (h : waiting b = .ok n b') : b' = b := by
  unfold waiting require at h
  split at h <;> cases h
  rfl

theorem fillTurn_draws (want : Nat) (_ : Unit) :
    Draws (fun b : Buffer => b.feed.size) (fillTurn want) := by
  intro b t b' h
  change EStateM.bind _ _ b = _ at h
  unfold EStateM.bind at h
  split at h
  · next n b₁ hn =>
    rw [waiting_state hn] at h
    dsimp only at h
    split at h
    · exact refill_draws _ _ _ h
    · cases h
  · cases h

/-- Make room if more has to be read. -/
def makeRoom (want : Nat) : EStateM Mishap Buffer Unit := do
  if (← waiting) < want then shift else return ()

/-- Read until there are `want` bytes to be decoded, or until a read gives none. -/
def fill (want : Nat) : EStateM Mishap Buffer Unit := do
  makeRoom want
  loop (fun b : Buffer => b.feed.size) (fun _ => fillTurn want) (fillTurn_draws want) ()

/-! ## Decoding -/

/-- How many bytes a character takes that begins with this byte. -/
def width (lead : UInt8) : Except Mishap Nat :=
  match Utf8.tails? lead with
  | none => .error (.failed (.badLead lead))
  | some ranges => .ok (ranges.length + 1)

/-- The character of a whole sequence of bytes. -/
def decode (bytes : List UInt8) : Except Mishap Char :=
  match Utf8.decodeHead bytes with
  | .error e => .error (.failed e)
  | .ok none => .error .noCharacter
  | .ok (some (c, _)) => .ok c

/-- So many bytes have been decoded. -/
def advance (n : Nat) : EStateM Mishap Buffer Unit := modify fun b => { b with start := b.start + n }

/-- The character that the next `width` bytes are. -/
def takeSequence (width : Nat) : EStateM Mishap Buffer (Option Char) := do
  if (← waiting) < width then throw (.failed .truncated)
  else
    let b ← get
    let c ← require (decode (← require (slice b.bytes b.start (b.start + width))))
    advance width
    return some c

/-- The next character, if there are bytes to be decoded. A byte of ASCII is one by itself. -/
def takeChar : EStateM Mishap Buffer (Option Char) := do
  let b ← get
  if b.stop ≤ b.start then return none
  else
    let lead ← require (byteAt b.bytes b.start)
    if lead ≤ 0x7F then
      advance 1
      return some (Char.ofNat lead.toNat)
    else
      let width ← require (width lead)
      fill width
      takeSequence width

/-- The next character, or none if the input ends here. -/
def read : EStateM Mishap Buffer (Option Char) := do
  fill 1
  takeChar

/-- So many calls, each with its answer. -/
def calls : Nat → EStateM Mishap Buffer (List (Except Mishap (Option Char)))
  | 0 => return []
  | n + 1 => do
    let first ← attempt read
    return first :: (← calls n)

end Buffer

end Pretoken
