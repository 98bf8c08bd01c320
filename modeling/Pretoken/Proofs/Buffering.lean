import Pretoken.Bytes.Buffer
import Pretoken.Proofs.Retaking

/-!
# Decoding in an array

A buffer does what a decoder does, and nothing that it looks at or writes to lies outside its array.

* `Buffer.Shows`: what lies between the marks of a buffer is what is pending in a decoder.
* `Buffer.Mirrors`: the same comes of both.
* `Buffer.fill_mirrors`, `Buffer.read_mirrors`: filling, and reading a character.
* **`Buffer.calls_mirrors`**: any number of calls.
-/

namespace Pretoken

variable {α : Type}

namespace Utf8

/-- Only as many bytes are looked at as there are ranges. -/
theorem agreeing_take (ranges : List ByteRange) (bs : List UInt8) :
    agreeing ranges (bs.take ranges.length) = agreeing ranges bs := by
  induction ranges generalizing bs with
  | nil => cases bs <;> rfl
  | cons r ranges ih =>
    obtain ⟨lo, hi⟩ := r
    cases bs with
    | nil => rfl
    | cons b bs => simp only [List.length_cons, List.take_succ_cons, agreeing, ih]

/-- Bytes after a sequence do not change what comes of it. -/
theorem decodeHead_take {lead : UInt8} {tail : List UInt8} {ranges : List ByteRange}
    (h : tails? lead = some ranges) (hle : ranges.length ≤ tail.length) :
    (∃ e, decodeHead (lead :: tail.take ranges.length) = .error e ∧ decodeHead (lead :: tail) = .error e) ∨
      ∃ c, decodeHead (lead :: tail.take ranges.length) = .ok (some (c, [])) ∧
        decodeHead (lead :: tail) = .ok (some (c, tail.drop ranges.length)) := by
  have hn : agreeing ranges tail ≤ ranges.length := agreeing_le ranges tail
  simp only [decodeHead, h, agreeing_take, List.length_take, Nat.min_eq_left hle, Nat.lt_irrefl, if_false,
    Nat.not_lt.2 hle]
  by_cases hlt : agreeing ranges tail < ranges.length
  · exact .inl ⟨_, if_pos hlt, if_pos hlt⟩
  · obtain hall : agreeing ranges tail = ranges.length := Nat.le_antisymm hn (Nat.not_lt.1 hlt)
    refine .inr ⟨Char.ofNat (codePoint lead (tail.take ranges.length)), ?_, ?_⟩
    · rw [if_neg hlt, hall, List.take_take, Nat.min_self, List.drop_eq_nil_of_le (List.length_take_le _ _)]
    · rw [if_neg hlt, hall]

end Utf8

namespace Decoder

/-- Filling only adds to what is pending. -/
theorem prefix_of_fill {want : Nat} {d d' : Decoder} (h : fill want d = .ok () d') : d.pending <+: d'.pending := by
  unfold fill at h
  generalize () = u at h
  induction u, d using loop_induct (fillTurn_draws want) with
  | step u d ih =>
    rw [loop_eq] at h
    match ht : fillTurn want d with
    | .ok (.again _) d₁ =>
      rw [ht] at h
      refine List.IsPrefix.trans ?_ (ih _ _ ht h)
      unfold fillTurn at ht
      split at ht
      · split at ht <;> cases ht
        exact List.prefix_append _ _
      · cases ht
    | .ok (.done _) d₁ =>
      rw [ht] at h
      cases h
      unfold fillTurn at ht
      split at ht
      · split at ht <;> cases ht
        exact List.prefix_refl _
      · cases ht
        exact List.prefix_refl _
    | .error e d₁ =>
      rw [ht] at h
      cases h

end Decoder

namespace Buffer

/-- What lies between the marks is pending in the decoder, and the feed is the same. -/
structure Shows (b : Buffer) (d : Decoder) : Prop where
  start_le : b.start ≤ b.stop
  stop_le : b.stop ≤ Decoder.capacity
  length : b.bytes.length = Decoder.capacity
  pending : (b.bytes.take b.stop).drop b.start = d.pending
  feed : b.feed = d.feed

/-- The same comes of the buffer and of the decoder, and afterwards they are in the relation `R`. -/
inductive Mirrors (R : Buffer → Decoder → Prop) :
    EStateM.Result Mishap Buffer α → EStateM.Result ReadError Decoder α → Prop
  /-- A result. -/
  | ok (a : α) {b : Buffer} {d : Decoder} (rel : R b d) : Mirrors R (.ok a b) (.ok a d)
  /-- A failure to read or to decode. -/
  | failed (e : ReadError) {b : Buffer} {d : Decoder} (rel : Shows b d) :
    Mirrors R (.error (.failed e) b) (.error e d)

theorem Mirrors.bind {β : Type} {R R' : Buffer → Decoder → Prop} {m : EStateM Mishap Buffer α}
    {n : EStateM ReadError Decoder α} {f : α → EStateM Mishap Buffer β} {g : α → EStateM ReadError Decoder β}
    {b : Buffer} {d : Decoder} (hm : Mirrors R (m b) (n d))
    (hf : ∀ a b' d', n d = .ok a d' → R b' d' → Mirrors R' (f a b') (g a d')) :
    Mirrors R' ((m >>= f) b) ((n >>= g) d) := by
  generalize hb : m b = r at hm
  generalize hd : n d = r' at hm
  cases hm with
  | @ok a b' d' rel =>
    rw [bind_of_ok hb, bind_of_ok hd]
    exact hf a b' d' hd rel
  | failed e rel =>
    rw [bind_of_error hb, bind_of_error hd]
    exact .failed e rel

/-- What a call answers. -/
theorem Mirrors.attempt {m : EStateM Mishap Buffer α} {n : EStateM ReadError Decoder α} {b : Buffer} {d : Decoder}
    (hm : Mirrors Shows (m b) (n d)) :
    ∃ r b' d', Pretoken.attempt n d = .ok r d' ∧ Pretoken.attempt m b = .ok (r.mapError .failed) b' ∧
      Shows b' d' := by
  unfold Pretoken.attempt
  generalize m b = r at hm
  generalize n d = r' at hm
  cases hm with
  | ok a rel => exact ⟨.ok a, _, _, rfl, rfl, rel⟩
  | failed e rel => exact ⟨.error e, _, _, rfl, rfl, rel⟩

theorem ofFeed_shows (feed : Feed) : Shows (ofFeed feed) (.ofFeed feed) :=
  ⟨Nat.le_refl _, Nat.zero_le _, List.length_replicate, rfl, rfl⟩

variable {b : Buffer} {d : Decoder} {want : Nat}

/-! ## Checks -/

theorem Shows.length_pending (h : Shows b d) : b.stop - b.start = d.pending.length := by
  have hstop := h.stop_le
  rw [← h.pending, List.length_drop, List.length_take, h.length, Nat.min_eq_left hstop]

theorem waiting_ok (h : Shows b d) : waiting b = .ok d.pending.length b := by
  rw [waiting, minus, if_pos h.start_le, h.length_pending]
  rfl

theorem slice_ok {bytes : List UInt8} {lo hi : Nat} (h : lo ≤ hi) (h' : hi ≤ bytes.length) :
    slice bytes lo hi = .ok ((bytes.take hi).drop lo) :=
  if_pos ⟨h, h'⟩

theorem require_ok {r : Except Mishap α} {a : α} (h : r = .ok a) : require r b = .ok a b := by
  simp only [require, h]

theorem require_error {r : Except Mishap α} {e : Mishap} (h : r = .error e) : require r b = .error e b := by
  simp only [require, h]

/-! ## Filling -/

/-- Nothing lies before the bytes to be decoded, if more have to be read. -/
def Ready (want : Nat) (b : Buffer) (d : Decoder) : Prop :=
  Shows b d ∧ (d.pending.length < want → b.start = 0)

theorem shift_ok (h : Shows b d) : ∃ b', shift b = .ok () b' ∧ Shows b' d ∧ b'.start = 0 := by
  have hmoved := slice_ok h.start_le (h.length ▸ h.stop_le)
  rw [h.pending] at hmoved
  have hlen := h.length_pending
  have hstop := h.stop_le
  refine ⟨⟨d.pending ++ b.bytes.drop d.pending.length, 0, d.pending.length, b.feed⟩, ?_, ?_, rfl⟩
  · change (require (slice b.bytes b.start b.stop) >>= _) b = _
    rw [bind_of_ok (require_ok hmoved), bind_of_ok (waiting_ok h)]
    rfl
  · refine ⟨Nat.zero_le _, by dsimp only; omega, ?_, by simp, h.feed⟩
    rw [List.length_append, List.length_drop, h.length]
    omega

theorem makeRoom_ok (want : Nat) (h : Shows b d) : ∃ b', makeRoom want b = .ok () b' ∧ Ready want b' d := by
  rw [makeRoom, bind_of_ok (waiting_ok h)]
  by_cases hlt : d.pending.length < want
  · obtain ⟨b', hb', hs, h0⟩ := shift_ok h
    exact ⟨b', by rw [if_pos hlt, hb'], hs, fun _ => h0⟩
  · exact ⟨b, by rw [if_neg hlt]; rfl, h, fun hlt' => absurd hlt' hlt⟩

/-- A read into the rest of the array. -/
theorem refill_mirrors (h : Shows b d) (h0 : b.start = 0) (hlt : d.pending.length < want) :
    Mirrors (Ready want) (refill b) (Decoder.fillTurn want d) := by
  have hstop : b.stop = d.pending.length := by
    have := h.length_pending
    omega
  have hle := h.stop_le
  have hroom : slice b.bytes b.stop Decoder.capacity = .ok (b.bytes.drop b.stop) := by
    rw [slice_ok hle (Nat.le_of_eq h.length.symm), List.take_of_length_le (Nat.le_of_eq h.length)]
  have hlen : (b.bytes.drop b.stop).length = Decoder.capacity - d.pending.length := by
    rw [List.length_drop, h.length, hstop]
  unfold refill Decoder.fillTurn
  simp only [hroom, hlen, if_pos hlt, h.feed]
  cases hr : d.feed.read (Decoder.capacity - d.pending.length) with
  | error e feed => exact .failed e ⟨h.start_le, h.stop_le, h.length, h.pending, rfl⟩
  | ok bs feed =>
    cases bs with
    | nil => exact .ok _ ⟨⟨h.start_le, h.stop_le, h.length, h.pending, rfl⟩, fun _ => h0⟩
    | cons x xs =>
      have hfits : (x :: xs).length ≤ Decoder.capacity - d.pending.length := Feed.length_le_of_read_ok hr
      have hpending : b.bytes.take b.stop = d.pending := by
        have := h.pending
        rwa [h0, List.drop_zero] at this
      refine .ok _ ⟨⟨by simp [h0], ?_, ?_, ?_, rfl⟩, fun _ => h0⟩
      · change b.stop + (x :: xs).length ≤ _
        omega
      · simp only [List.length_append, hpending, List.length_drop, h.length]
        omega
      · change (List.take (b.stop + (x :: xs).length) (b.bytes.take b.stop ++ (x :: xs) ++ _)).drop b.start = _
        rw [h0, List.drop_zero, hpending, List.take_left' (by rw [List.length_append, hstop])]

theorem fillTurn_mirrors (h : Ready want b d) :
    Mirrors (Ready want) (fillTurn want b) (Decoder.fillTurn want d) := by
  rw [fillTurn, bind_of_ok (waiting_ok h.1)]
  by_cases hlt : d.pending.length < want
  · rw [if_pos hlt]
    exact refill_mirrors h.1 (h.2 hlt) hlt
  · rw [if_neg hlt, Decoder.fillTurn, if_neg hlt]
    exact .ok _ h

/-- **Filling a buffer** fills the decoder that it shows. -/
theorem fill_mirrors (want : Nat) (h : Shows b d) : Mirrors Shows (fill want b) (Decoder.fill want d) := by
  obtain ⟨b', hb', hready⟩ := makeRoom_ok want h
  rw [fill, bind_of_ok hb', Decoder.fill]
  clear hb' h
  generalize () = u
  induction u, d using loop_induct (Decoder.fillTurn_draws want) generalizing b' with
  | step u d ih =>
    rw [loop_eq, loop_eq]
    have hm := fillTurn_mirrors hready
    generalize fillTurn want b' = r at hm ⊢
    generalize hd : Decoder.fillTurn want d = r' at hm ⊢
    cases hm with
    | failed e rel => exact .failed e rel
    | @ok t b₁ d₁ rel =>
      cases t with
      | again u' => exact ih u' d₁ hd b₁ rel
      | done u' => exact .ok u' rel.1

/-! ## Decoding -/

/-- What is left if so many bytes have been decoded. -/
theorem advance_ok (h : Shows b d) {n : Nat} (hn : n ≤ d.pending.length) :
    ∃ b', advance n b = .ok () b' ∧ Shows b' { d with pending := d.pending.drop n } := by
  have hlen := h.length_pending
  have hle := h.start_le
  refine ⟨{ b with start := b.start + n }, rfl, by dsimp only; omega, h.stop_le, h.length, ?_, h.feed⟩
  rw [← h.pending, List.drop_drop]

theorem slice_pending (h : Shows b d) {n : Nat} (hn : n ≤ d.pending.length) :
    slice b.bytes b.start (b.start + n) = .ok (d.pending.take n) := by
  have hlen := h.length_pending
  have hle := h.start_le
  have hstop := h.stop_le
  have hbytes := h.length
  rw [slice_ok (Nat.le_add_right _ _) (by omega), ← h.pending, List.drop_take, List.drop_take, List.take_take,
    Nat.add_sub_cancel_left, Nat.min_eq_left (by omega)]

theorem byteAt_pending (h : Shows b d) {lead : UInt8} {tail : List UInt8} (hd : d.pending = lead :: tail) :
    byteAt b.bytes b.start = .ok lead := by
  have hget : b.bytes[b.start]? = some lead := by
    have hp := congrArg List.head? (h.pending.trans hd)
    rwa [List.head?_drop, List.head?_cons, List.getElem?_take_of_lt] at hp
    have := h.length_pending
    rw [hd, List.length_cons] at this
    omega
  rw [byteAt, hget]

theorem takeSequence_mirrors (h : Shows b d) {lead : UInt8} {tail : List UInt8} (hd : d.pending = lead :: tail)
    {ranges : List Utf8.ByteRange} (hr : Utf8.tails? lead = some ranges) :
    Mirrors Shows (takeSequence (ranges.length + 1) b) (Decoder.takeChar d) := by
  rw [takeSequence, bind_of_ok (waiting_ok h), Decoder.takeChar, hd]
  by_cases hlt : tail.length < ranges.length
  · have hshort : Utf8.decodeHead (lead :: tail) = .error .truncated := by
      simp only [Utf8.decodeHead, hr, if_pos hlt]
    have hlt' : (lead :: tail).length < ranges.length + 1 := Nat.succ_lt_succ hlt
    rw [if_pos hlt', hshort]
    exact .failed _ h
  · have hle : ranges.length + 1 ≤ (lead :: tail).length := Nat.succ_le_succ (Nat.not_lt.1 hlt)
    have hslice := slice_pending h (hd ▸ hle)
    rw [hd, List.take_succ_cons] at hslice
    rw [if_neg (Nat.not_lt.2 hle)]
    change Mirrors Shows ((require (slice b.bytes b.start (b.start + (ranges.length + 1))) >>= _) b) _
    rw [bind_of_ok (require_ok hslice)]
    obtain ⟨e, he, he'⟩ | ⟨c, hc, hc'⟩ := Utf8.decodeHead_take hr (Nat.not_lt.1 hlt)
    · have hdec : decode (lead :: tail.take ranges.length) = .error (.failed e) := by rw [decode, he]
      rw [he', bind_of_error (require_error hdec)]
      exact .failed e h
    · have hdec : decode (lead :: tail.take ranges.length) = .ok c := by rw [decode, hc]
      obtain ⟨b', hb', hs⟩ := advance_ok h (hd ▸ hle)
      rw [hc', bind_of_ok (require_ok hdec), bind_of_ok hb']
      rw [hd, List.drop_succ_cons] at hs
      exact .ok _ hs

/-- A decoder that reads a character fills, and fills again as far as the first byte asks for. -/
theorem takeChar_mirrors (h : Shows b d) : Mirrors Shows (takeChar b)
    ((Decoder.fill (Utf8.width d.pending) >>= fun _ => Decoder.takeChar) d) := by
  have hlen := h.length_pending
  change Mirrors Shows ((if b.stop ≤ b.start then _ else _ : EStateM Mishap Buffer (Option Char)) b) _
  cases hd : d.pending with
  | nil =>
    have hidle : Decoder.fill (Utf8.width []) d = .ok () d := Decoder.fill_idle (.inl (Nat.zero_le _))
    rw [hd, List.length_nil] at hlen
    rw [if_pos (Nat.sub_eq_zero_iff_le.1 hlen), bind_of_ok hidle, Decoder.takeChar, hd]
    exact .ok none h
  | cons lead tail =>
    have hpos : 1 ≤ d.pending.length := by
      rw [hd]
      exact Nat.succ_pos _
    have hne : ¬ b.stop ≤ b.start := by omega
    rw [if_neg hne, bind_of_ok (require_ok (byteAt_pending h hd))]
    by_cases hascii : lead ≤ 0x7F
    · have ht : Utf8.tails? lead = some [] := if_pos hascii
      have hwidth : Utf8.width (lead :: tail) = 1 := by
        rw [Utf8.width, ht]
        rfl
      have hhead : Utf8.decodeHead (lead :: tail) = .ok (some (Char.ofNat lead.toNat, tail)) := by
        rw [Utf8.decodeHead, ht]
        rfl
      obtain ⟨b', hb', hs⟩ := advance_ok h hpos
      rw [if_pos hascii, bind_of_ok hb', hwidth, bind_of_ok (Decoder.fill_idle (.inl hpos)), Decoder.takeChar, hd,
        hhead]
      rw [hd, List.drop_one, List.tail_cons] at hs
      exact .ok _ hs
    · rw [if_neg hascii]
      cases ht : Utf8.tails? lead with
      | none =>
        have hwidth : Utf8.width (lead :: tail) = 1 := by rw [Utf8.width, ht]
        have hlead : width lead = .error (.failed (.badLead lead)) := by rw [width, ht]
        have hhead : Utf8.decodeHead (lead :: tail) = .error (.badLead lead) := by rw [Utf8.decodeHead, ht]
        rw [bind_of_error (require_error hlead), hwidth, bind_of_ok (Decoder.fill_idle (.inl hpos)),
          Decoder.takeChar, hd, hhead]
        exact .failed _ h
      | some ranges =>
        have hwidth : Utf8.width (lead :: tail) = ranges.length + 1 := by rw [Utf8.width, ht]
        have hlead : width lead = .ok (ranges.length + 1) := by rw [width, ht]
        rw [bind_of_ok (require_ok hlead), hwidth]
        refine (fill_mirrors (ranges.length + 1) h).bind fun _ b₁ d₁ hf rel => ?_
        -- filling has changed nothing about the first byte
        obtain ⟨more, hmore⟩ := Decoder.prefix_of_fill hf
        rw [hd, List.cons_append] at hmore
        exact takeSequence_mirrors rel hmore.symm ht

/-- **Reading a character** from a buffer and from the decoder that it shows. -/
theorem read_mirrors (h : Shows b d) : Mirrors Shows (read b) (Decoder.read d) :=
  (fill_mirrors 1 h).bind fun _ _ _ _ rel => takeChar_mirrors rel

/-! ## Calls -/

/-- **A buffer does what a decoder does**, whatever is fed to it, and however often it is called: each call gives the
same character or the same failure, and none of them looks outside the array. -/
theorem calls_mirrors (n : Nat) (h : Shows b d) :
    ∃ rs b' d', Decoder.calls n d = .ok rs d' ∧ calls n b = .ok (rs.map (Except.mapError .failed)) b' ∧
      Shows b' d' := by
  induction n generalizing b d with
  | zero => exact ⟨[], b, d, rfl, rfl, h⟩
  | succ n ih =>
    obtain ⟨r, b₁, d₁, hd₁, hb₁, hs₁⟩ := (read_mirrors h).attempt
    obtain ⟨rs, b', d', hd', hb', hs⟩ := ih hs₁
    refine ⟨r :: rs, b', d', ?_, ?_, hs⟩
    · rw [Decoder.calls, bind_of_ok hd₁, bind_of_ok hd']
      rfl
    · rw [calls, bind_of_ok hb₁, bind_of_ok hb']
      rfl

end Buffer

end Pretoken
