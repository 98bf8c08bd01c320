import Mathlib.Tactic.SplitIfs
import Pretoken.Bytes.LineReader
import Pretoken.Proofs.Triple

/-!
# Reading well-formed text

* **`Utf8.decodeHead_encode`**: a character is decoded from its encoding, whatever follows.
* `Feed.Supplies`: a feed without failures that hands out certain bytes, in pieces of any size, and
  then stays at its end.
* `Decoder.Holds`, **`Decoder.read_char`**: a decoder that holds the encoding of a text gives the
  text, one character at a time.
* `Text.unifyLineEnds`, `LineReader.Holds`, **`LineReader.read_meets`**: the same for a line reader,
  line ends being unified.
-/

namespace Pretoken

/-! ## Encodings -/

namespace Utf8

theorem val_lt (c : Char) :
    c.val.toNat < 0xD800 ∨ 0xDFFF < c.val.toNat ∧ c.val.toNat < 0x110000 := by
  have h := c.valid
  simpa [UInt32.isValidChar, Nat.isValidChar] using h

theorem tails?_one : ∀ n < 128, tails? (UInt8.ofNat n) = some [] := by decide

theorem tails?_two :
    ∀ n < 32, 2 ≤ n → tails? (UInt8.ofNat (n + 0xc0)) = some [continuation] := by decide

theorem tails?_three : ∀ n < 16, tails? (UInt8.ofNat (n + 0xe0)) =
    some [(if n = 0 then 0xA0 else 0x80, if n = 13 then 0x9F else 0xBF), continuation] := by decide

theorem tails?_four : ∀ n < 5, tails? (UInt8.ofNat (n + 0xf0)) =
    some [(if n = 0 then 0x90 else 0x80, if n = 4 then 0x8F else 0xBF), continuation,
      continuation] := by decide

theorem agreeing_nil (bs : List UInt8) : agreeing [] bs = 0 := by
  cases bs <;> rfl

theorem agreeing_le (rs : List ByteRange) (bs : List UInt8) : agreeing rs bs ≤ rs.length := by
  fun_induction agreeing rs bs with
  | case1 lo hi rs b bs h ih => exact Nat.succ_le_succ ih
  | case2 lo hi rs b bs h => exact Nat.zero_le _
  | case3 => exact Nat.zero_le _

theorem agreeing_cons {r : ByteRange} {b : UInt8} (rs : List ByteRange) (bs : List UInt8)
    (h : r.1 ≤ b ∧ b ≤ r.2) : agreeing (r :: rs) (b :: bs) = agreeing rs bs + 1 := by
  obtain ⟨lo, hi⟩ := r
  rw [agreeing, if_pos h]

theorem continuation_of_lt {n : Nat} (h : n < 64) :
    continuation.1 ≤ UInt8.ofNat (n + 0x80) ∧ UInt8.ofNat (n + 0x80) ≤ continuation.2 := by
  simp only [continuation, UInt8.le_iff_toNat_le, UInt8.toNat_ofNat', UInt8.reduceToNat]
  omega

theorem decodeHead_of_agreeing {lead : UInt8} {t rest : List UInt8} {ranges : List ByteRange}
    (ht : tails? lead = some ranges) (hl : t.length = ranges.length)
    (ha : agreeing ranges (t ++ rest) = ranges.length) :
    decodeHead (lead :: (t ++ rest)) = .ok (some (Char.ofNat (codePoint lead t), rest)) := by
  have h : ¬ (t ++ rest).length < ranges.length := by rw [List.length_append]; omega
  simp only [decodeHead, ht, ha, h, Nat.lt_irrefl, if_false]
  rw [← hl, List.take_left, List.drop_left]

/-- The second byte of three lies in the range that its lead byte leaves: neither is the form
overlong, nor is the character a surrogate. -/
theorem second_of_three {v : Nat} (hv : v < 0xD800 ∨ 0xDFFF < v ∧ v < 0x110000) (h : ¬ v ≤ 0x7ff)
    (h' : v ≤ 0xffff) :
    (if v / 4096 % 16 = 0 then 0xA0 else 0x80) ≤ UInt8.ofNat (v / 64 % 64 + 0x80) ∧
      UInt8.ofNat (v / 64 % 64 + 0x80) ≤ if v / 4096 % 16 = 13 then 0x9F else 0xBF := by
  constructor <;> split_ifs <;>
    simp only [UInt8.le_iff_toNat_le, UInt8.toNat_ofNat', UInt8.reduceToNat] <;> omega

/-- The second byte of four: neither is the form overlong, nor is the number too large. -/
theorem second_of_four {v : Nat} (hv : v < 0x110000) (h : ¬ v ≤ 0xffff) :
    (if v / 262144 % 8 = 0 then 0x90 else 0x80) ≤ UInt8.ofNat (v / 4096 % 64 + 0x80) ∧
      UInt8.ofNat (v / 4096 % 64 + 0x80) ≤ if v / 262144 % 8 = 4 then 0x8F else 0xBF := by
  constructor <;> split_ifs <;>
    simp only [UInt8.le_iff_toNat_le, UInt8.toNat_ofNat', UInt8.reduceToNat] <;> omega

/-- **A character is decoded from its encoding, whatever follows.** -/
theorem decodeHead_encode (c : Char) (rest : List UInt8) :
    decodeHead (String.utf8EncodeChar c ++ rest) = .ok (some (c, rest)) := by
  have hv := val_lt c
  have hc : Char.ofNat c.val.toNat = c := Char.ofNat_toNat c
  unfold String.utf8EncodeChar
  generalize c.val.toNat = v at hv hc ⊢
  dsimp only
  have h64 := @continuation_of_lt
  split_ifs with h₁ h₂ h₃
  · refine (decodeHead_of_agreeing (t := []) (tails?_one v (by omega)) rfl
      (agreeing_nil _)).trans ?_
    rw [codePoint, List.foldl_nil, List.length_nil, leadBits, UInt8.toNat_ofNat',
      Nat.mod_eq_of_lt (by omega), hc]
  · refine (decodeHead_of_agreeing (t := [_]) (tails?_two (v / 64 % 32) (by omega) (by omega))
      rfl ?_).trans ?_
    · rw [List.singleton_append, agreeing_cons _ _ (h64 (by omega)), agreeing_nil]
      rfl
    · simp only [codePoint, List.length_singleton, leadBits, List.foldl_cons, List.foldl_nil,
        UInt8.toNat_ofNat']
      rw [show (v / 64 % 32 + 192) % 2 ^ 8 % 32 * 64 + (v % 64 + 128) % 2 ^ 8 % 64 = v by omega, hc]
  · refine (decodeHead_of_agreeing (t := [_, _]) (tails?_three (v / 4096 % 16) (by omega))
      rfl ?_).trans ?_
    · rw [List.cons_append, List.singleton_append, agreeing_cons _ _ (second_of_three hv h₂ h₃),
        agreeing_cons _ _ (h64 (by omega)), agreeing_nil]
      rfl
    · simp only [codePoint, List.length_cons, List.length_nil, leadBits, List.foldl_cons,
        List.foldl_nil, UInt8.toNat_ofNat']
      rw [show ((v / 4096 % 16 + 224) % 2 ^ 8 % 16 * 64 + (v / 64 % 64 + 128) % 2 ^ 8 % 64) * 64 +
        (v % 64 + 128) % 2 ^ 8 % 64 = v by omega, hc]
  · refine (decodeHead_of_agreeing (t := [_, _, _]) (tails?_four (v / 262144 % 8) (by omega))
      rfl ?_).trans ?_
    · rw [List.cons_append, List.cons_append, List.singleton_append,
        agreeing_cons _ _ (second_of_four (by omega) h₃), agreeing_cons _ _ (h64 (by omega)),
        agreeing_cons _ _ (h64 (by omega)), agreeing_nil]
      rfl
    · simp only [codePoint, List.length_cons, List.length_nil, leadBits, List.foldl_cons,
        List.foldl_nil, UInt8.toNat_ofNat']
      rw [show (((v / 262144 % 8 + 240) % 2 ^ 8 % 8 * 64 + (v / 4096 % 64 + 128) % 2 ^ 8 % 64) * 64 +
        (v / 64 % 64 + 128) % 2 ^ 8 % 64) * 64 + (v % 64 + 128) % 2 ^ 8 % 64 = v by omega, hc]

/-- The first byte of a character tells how many there are. -/
theorem width_eq_of_decodeHead {bs rest : List UInt8} {c : Char}
    (h : decodeHead bs = .ok (some (c, rest))) : width bs + rest.length = bs.length := by
  match bs, h with
  | lead :: t, h =>
    unfold decodeHead at h
    rw [width]
    match ht : tails? lead with
    | none => simp [ht] at h
    | some ranges =>
      simp only [ht] at h ⊢
      split_ifs at h with h₁ h₂
      have hle := agreeing_le ranges t
      simp only [Except.ok.injEq, Option.some.injEq, Prod.mk.injEq] at h
      rw [← h.2, List.length_drop, List.length_cons]
      omega

theorem width_encode (c : Char) (rest : List UInt8) :
    width (String.utf8EncodeChar c ++ rest) = (String.utf8EncodeChar c).length := by
  have h := width_eq_of_decodeHead (decodeHead_encode c rest)
  rw [List.length_append] at h
  omega

theorem width_append {bs : List UInt8} (h : bs ≠ []) (rest : List UInt8) :
    width (bs ++ rest) = width bs := by
  match bs, h with
  | b :: bs, _ => rfl

theorem width_le (bs : List UInt8) : width bs ≤ Decoder.capacity := by
  have h (b : UInt8) : ((tails? b).map List.length).getD 0 ≤ 3 := by
    unfold tails?
    split_ifs <;> decide
  match bs with
  | [] => exact Nat.zero_le _
  | b :: bs =>
    have hb := h b
    rw [width]
    cases ht : tails? b with
    | none => decide
    | some ranges =>
      rw [ht] at hb
      simp only [Option.map_some, Option.getD_some, Decoder.capacity] at hb ⊢
      omega

/-- The encoding of a text. -/
def encode (cs : List Char) : List UInt8 := cs.flatMap String.utf8EncodeChar

@[simp] theorem encode_nil : encode [] = [] := rfl

@[simp] theorem encode_cons (c : Char) (cs : List Char) :
    encode (c :: cs) = String.utf8EncodeChar c ++ encode cs := rfl

end Utf8

/-! ## Feeds without failures -/

/-- The feed hands out the given bytes, in pieces of any size, and then stays at its end. -/
inductive Feed.Supplies : Feed → List UInt8 → Prop
  /-- There is nothing left. -/
  | nil : Supplies [] []
  /-- After the last byte an empty piece changes nothing. -/
  | idle {feed : Feed} : Supplies feed [] → Supplies (.bytes [] :: feed) []
  /-- A piece that is not empty comes before the others. -/
  | piece (b : UInt8) (bs : List UInt8) {feed : Feed} {more : List UInt8} :
    Supplies feed more → Supplies (.bytes (b :: bs) :: feed) (b :: bs ++ more)

namespace Feed

theorem supplies_single (bs : List UInt8) : Supplies [.bytes bs] bs := by
  cases bs with
  | nil => exact .idle .nil
  | cons b bs => simpa using Supplies.piece b bs .nil

theorem Supplies.read_nil {feed : Feed} (h : feed.Supplies []) (room : Nat) :
    ∃ feed', feed.read room = .ok [] feed' ∧ Supplies feed' [] := by
  cases h with
  | nil => exact ⟨[], rfl, .nil⟩
  | idle h => exact ⟨_, by rw [read, List.drop_nil], h⟩

theorem Supplies.read_cons {feed : Feed} {bytes : List UInt8} (h : feed.Supplies bytes)
    (hb : bytes ≠ []) (room : Nat) (hr : 0 < room) :
    ∃ b bs feed' more, feed.read room = .ok (b :: bs) feed' ∧ Supplies feed' more ∧
      b :: bs ++ more = bytes := by
  obtain ⟨n, rfl⟩ : ∃ n, room = n + 1 := ⟨room - 1, by omega⟩
  cases h with
  | nil => exact absurd rfl hb
  | idle h => exact absurd rfl hb
  | @piece b bs feed more h =>
    cases hd : bs.drop n with
    | nil => exact ⟨b, bs, feed, more, by rw [read, List.drop_succ_cons, hd], h, rfl⟩
    | cons x xs =>
      refine ⟨b, bs.take n, _, _, by rw [read, List.drop_succ_cons, hd]; rfl, .piece x xs h, ?_⟩
      rw [← hd, ← List.append_assoc, List.cons_append, List.take_append_drop]

end Feed

/-! ## Decoders -/

namespace Decoder

/-- The pending bytes of the decoder and those that it will be supplied with. -/
def Holds (d : Decoder) (bytes : List UInt8) : Prop :=
  ∃ more, d.feed.Supplies more ∧ d.pending ++ more = bytes

/-- Filling changes nothing but where the bytes are. Afterwards enough are pending, or all. -/
theorem fill_meets {want : Nat} (hw : want ≤ capacity) (bytes : List UInt8) :
    Meets (·.Holds bytes) (fill want) fun _ d =>
      d.Holds bytes ∧ (want ≤ d.pending.length ∨ d.pending = bytes) := by
  refine Meets.loop (I := fun (_ : Unit) (d : Decoder) => d.Holds bytes) ?_ ()
  rintro _ d ⟨more, hs, hb⟩
  unfold fillTurn
  split
  · next hlt =>
    by_cases hm : more = []
    · subst hm
      obtain ⟨feed, hr, hs'⟩ := hs.read_nil (capacity - d.pending.length)
      rw [List.append_nil] at hb
      exact ⟨.done (), { d with feed }, by rw [hr], ⟨[], hs', by simpa using hb⟩, .inr hb⟩
    · obtain ⟨b, bs, feed, more', hr, hs', hm'⟩ := hs.read_cons hm (capacity - d.pending.length)
        (by omega)
      exact ⟨.again (), _, by rw [hr], more', hs', by rw [List.append_assoc, hm', hb]⟩
  · next hge => exact ⟨_, _, rfl, ⟨more, hs, hb⟩, .inl (by omega)⟩

/-- **The next character that the decoder holds**, whatever follows. -/
theorem read_char (c : Char) (bytes : List UInt8) :
    Meets (·.Holds (String.utf8EncodeChar c ++ bytes)) read fun o d => o = some c ∧ d.Holds bytes := by
  refine (fill_meets (by decide) _).bind fun _ d hd => ?_
  obtain ⟨hold, hfull⟩ := hd
  have hne : d.pending ≠ [] := by
    rintro hp
    rcases hfull with h | h
    · rw [hp] at h
      exact absurd h (by decide)
    · have hd := Utf8.decodeHead_encode c bytes
      rw [← h, hp] at hd
      cases hd
  have hw : Utf8.width d.pending = (String.utf8EncodeChar c).length := by
    obtain ⟨more, -, hb⟩ := hold
    rw [← Utf8.width_append hne more, hb, Utf8.width_encode]
  obtain ⟨u, d', hf, ⟨more, hs, hb⟩, hfull⟩ := fill_meets (Utf8.width_le d.pending) _ d hold
  have hlen : (String.utf8EncodeChar c).length ≤ d'.pending.length := by
    rcases hfull with h | h
    · rwa [hw] at h
    · rw [h, List.length_append]
      exact Nat.le_add_right _ _
  obtain ⟨rest, hp⟩ : String.utf8EncodeChar c <+: d'.pending :=
    List.prefix_of_prefix_length_le ⟨bytes, rfl⟩ ⟨more, hb⟩ hlen
  refine ⟨some c, { d' with pending := rest }, ?_, rfl, more, hs, ?_⟩
  · change EStateM.bind (fill _) _ d = _
    rw [EStateM.bind, hf]
    change takeChar d' = _
    rw [takeChar, ← hp, Utf8.decodeHead_encode]
  · rw [← hp, List.append_assoc] at hb
    exact List.append_cancel_left hb

theorem read_nil : Meets (·.Holds []) read fun o d => o = none ∧ d.Holds [] := by
  refine (fill_meets (by decide) []).bind fun _ d hd => ?_
  have hp {d : Decoder} (h : d.Holds []) : d.pending = [] := by
    obtain ⟨more, -, hb⟩ := h
    exact (List.append_eq_nil_iff.1 hb).1
  obtain ⟨u, d', hf, hold, -⟩ := fill_meets (Utf8.width_le d.pending) [] d hd.1
  refine ⟨none, d', ?_, rfl, hold⟩
  change EStateM.bind (fill _) _ d = _
  rw [EStateM.bind, hf]
  change takeChar d' = _
  rw [takeChar, hp hold]
  rfl

end Decoder

/-! ## Line ends -/

/-- A text with one line feed for each of its line ends: a carriage return, and the line feed that
may follow it, is a line feed. -/
def Text.unifyLineEnds : List Char → List Char
  | '\r' :: '\n' :: cs => '\n' :: unifyLineEnds cs
  | '\r' :: cs => '\n' :: unifyLineEnds cs
  | c :: cs => c :: unifyLineEnds cs
  | [] => []

theorem Text.unifyLineEnds_cons {c : Char} (h : c ≠ '\r') (cs : List Char) :
    unifyLineEnds (c :: cs) = c :: unifyLineEnds cs := by
  rw [unifyLineEnds] <;> simp [h]

theorem Text.unifyLineEnds_return {c : Char} (h : c ≠ '\n') (cs : List Char) :
    unifyLineEnds ('\r' :: c :: cs) = '\n' :: unifyLineEnds (c :: cs) := by
  rw [unifyLineEnds]
  intro ds hd
  exact h (List.cons.inj hd).1

/-- An induction by line ends: a carriage return is the last character, or it comes before a line feed,
or before anything else. -/
theorem Text.lineEnds_induct {P : List Char → Prop} (nil : P []) (last : P ['\r'])
    (pair : ∀ cs, P cs → P ('\r' :: '\n' :: cs))
    (lone : ∀ c cs, c ≠ '\n' → P (c :: cs) → P ('\r' :: c :: cs))
    (char : ∀ c cs, c ≠ '\r' → P cs → P (c :: cs)) (cs : List Char) : P cs := by
  fun_induction unifyLineEnds cs with
  | case1 cs ih => exact pair cs ih
  | case2 cs hn ih =>
    cases cs with
    | nil => exact last
    | cons c cs =>
      refine lone c cs (fun hc => ?_) ih
      exact hn cs (congrArg (· :: cs) hc)
  | case3 c cs h₁ h₂ ih => exact char c cs h₂ ih
  | case4 => exact nil

namespace LineReader

open Text (unifyLineEnds)

/-- The character read ahead and the text of the decoder are the text `ds`, line ends not unified. -/
def HoldsRaw (r : LineReader) (ds : List Char) : Prop :=
  ∃ es, r.decoder.Holds (Utf8.encode es) ∧ r.ahead.toList ++ es = ds

/-- The reader is about to give the text `cs`. -/
def Holds (r : LineReader) (cs : List Char) : Prop := ∃ ds, r.HoldsRaw ds ∧ unifyLineEnds ds = cs

theorem ofFeed_holds {feed : Feed} {cs : List Char} (h : feed.Supplies (Utf8.encode cs)) :
    (ofFeed feed).Holds (unifyLineEnds cs) :=
  ⟨cs, ⟨cs, ⟨_, h, rfl⟩, rfl⟩, rfl⟩

theorem decode_meets (es : List Char) :
    Meets (fun r => r.ahead = none ∧ r.decoder.Holds (Utf8.encode es)) decode fun o r =>
      o = es.head? ∧ r.ahead = none ∧ r.decoder.Holds (Utf8.encode es.tail) := by
  rintro r ⟨ha, hr⟩
  have hread : Meets (·.Holds (Utf8.encode es)) Decoder.read fun o d =>
      o = es.head? ∧ d.Holds (Utf8.encode es.tail) := by
    cases es with
    | nil => exact Decoder.read_nil
    | cons c es => exact Decoder.read_char c (Utf8.encode es)
  obtain ⟨o, d, h, ho, hd⟩ := hread r.decoder hr
  exact ⟨o, _, onPart_ok h, ho, ha, hd⟩

theorem nextRaw_meets (ds : List Char) :
    Meets (·.HoldsRaw ds) nextRaw fun o r =>
      o = ds.head? ∧ r.ahead = none ∧ r.decoder.Holds (Utf8.encode ds.tail) := by
  rintro r ⟨es, hr, rfl⟩
  cases ha : r.ahead with
  | none =>
    simp only [nextRaw, ha]
    exact decode_meets es r ⟨ha, hr⟩
  | some c => exact ⟨some c, { r with ahead := none }, by rw [nextRaw, ha], rfl, rfl, hr⟩

/-- After a carriage return the reader is past the line end. -/
theorem afterReturn_meets (es : List Char) :
    Meets (fun r => r.ahead = none ∧ r.decoder.Holds (Utf8.encode es)) afterReturn fun _ r =>
      ∃ cs, r.Holds cs ∧ unifyLineEnds ('\r' :: es) = '\n' :: cs := by
  refine (decode_meets es).bind fun o => ?_
  cases es with
  | nil =>
    rintro r ⟨rfl, ha, hr⟩
    exact ⟨(), r, rfl, [], ⟨[], ⟨[], hr, by rw [ha]; rfl⟩, rfl⟩, rfl⟩
  | cons c es =>
    rintro r ⟨rfl, ha, hr⟩
    simp only [List.head?_cons]
    by_cases hc : c = '\n'
    · subst hc
      refine ⟨(), r, rfl, unifyLineEnds es, ⟨es, ⟨es, hr, by rw [ha]; rfl⟩, rfl⟩, rfl⟩
    · rw [if_neg hc]
      refine ⟨(), { r with ahead := some c }, rfl, unifyLineEnds (c :: es), ⟨c :: es, ?_, rfl⟩, ?_⟩
      · exact ⟨es, hr, rfl⟩
      · exact Text.unifyLineEnds_return hc es

/-- **The next character of a text that the reader holds**, or none at its end. -/
theorem read_meets (cs : List Char) :
    Meets (·.Holds cs) read fun o r => o = cs.head? ∧ r.Holds cs.tail := by
  rintro r ⟨ds, hr, rfl⟩
  refine (nextRaw_meets ds).bind (fun o => ?_) r hr
  cases ds with
  | nil =>
    rintro r ⟨rfl, ha, hr⟩
    exact ⟨none, r, rfl, rfl, [], ⟨[], hr, by rw [ha]; rfl⟩, rfl⟩
  | cons c ds =>
    simp only [List.head?_cons, List.tail_cons]
    rintro r ⟨rfl, ha, hd⟩
    simp only
    by_cases hc : c = '\r'
    · subst hc
      refine (afterReturn_meets ds).bind (fun _ => ?_) r ⟨ha, hd⟩
      rintro r ⟨cs, hr, hu⟩
      rw [hu]
      exact ⟨_, r, rfl, rfl, hr⟩
    · rw [if_neg hc, Text.unifyLineEnds_cons hc]
      exact ⟨_, r, rfl, rfl, ds, ⟨ds, hd, by rw [ha]; rfl⟩, rfl⟩

end LineReader

end Pretoken
