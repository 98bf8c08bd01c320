import Pretoken.Location

/-!
# Faults

* `ReadError`: why bytes could not be read or decoded.
* `Fault`: what ends a scan: a failed read, text that is not UTF-8, or a broken contract.
* `ReadError.locate`: a decoding error becomes a `Fault` at a location, any other read error stays
  what it is.
-/

namespace Pretoken

/-- The kinds of read errors. -/
inductive ReadErrorKind where
  | other
  | interrupted
  | invalidData
  | unexpectedEnd
deriving DecidableEq, Repr

/-- Why a read failed. -/
inductive ReadError where
  /-- No UTF-8 sequence starts with this byte. -/
  | badLead (byte : UInt8)
  /-- The input ends within the sequence that its lead byte announces. -/
  | truncated
  /-- Only the first `valid` bytes agree with some UTF-8 sequence. -/
  | badSequence (valid : Nat)
  /-- The supplier of the bytes reported a failure. -/
  | device (kind : ReadErrorKind) (text : String)
deriving DecidableEq, Repr

namespace ReadError

/-- The kind of an error: a decoding error is invalid data. -/
def kind : ReadError → ReadErrorKind
  | badLead _ | truncated | badSequence _ => .invalidData
  | device k _ => k

/-- The two hexadecimal digits of a byte, in lower case. -/
def hexByte (b : UInt8) : String :=
  String.ofList [Nat.digitChar (b.toNat / 16), Nat.digitChar (b.toNat % 16)]

/-- What went wrong. -/
def message : ReadError → String
  | badLead b => "invalid utf8 lead byte 0x" ++ hexByte b
  | truncated => "truncated utf8 sequence at end of input"
  | badSequence n => "invalid utf-8 sequence of " ++ toString n ++ " bytes from index 0"
  | device _ t => t

end ReadError

/-- Why a scan could not go on. -/
inductive Fault where
  /-- The bytes could not be read. -/
  | io (error : ReadError)
  /-- The bytes at this location are not UTF-8. -/
  | invalidEncoding (location : Location)
  /-- An operation was called against its contract. -/
  | violation (violation : Violation)
deriving DecidableEq, Repr

/-- What went wrong. -/
def Fault.message : Fault → String
  | io e => "I/O error: " ++ e.message
  | invalidEncoding l => "invalid UTF-8 sequence at " ++ l.text
  | violation v => v.message

/-- Invalid data becomes an encoding fault at `l`; any other error passes unchanged. -/
def ReadError.locate (l : Location) (e : ReadError) : Fault :=
  if e.kind = .invalidData then .invalidEncoding l else .io e

end Pretoken
