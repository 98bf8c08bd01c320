import Pretoken.Proofs.Decoding

/-!
# Bytes that arrive in pieces

A feed may hand out its bytes in pieces of any size, with failures between them. None of this shows
in the characters that a decoder gives.

* **`Utf8.eq_encode_of_decodeHead`**: what is decoded is the encoding of the character found.
* `Utf8.decodeHead_append`: once a character's bytes are at hand, further ones change nothing.
* `Utf8.Splits`, `Utf8.exists_splits`: the longest text with which some bytes start.
* `Feed.content`, `Feed.failures`, `Decoder.Arrives`: what a feed still has in store.
* `Decoder.read_cases`: one call either reports the next failure of the feed, or answers as if all
  bytes were at hand.
* **`Decoder.calls_of_arrival`**: any number of calls.
-/

namespace Pretoken

/-! ## Decoding inverts encoding -/

namespace Utf8

theorem tails?_none {lead : UInt8}
    (h : 0x80 ≤ lead.toNat ∧ lead.toNat < 0xC2 ∨ 0xF4 < lead.toNat) : tails? lead = none := by
  unfold tails?
  simp only [UInt8.le_iff_toNat_le, UInt8.lt_iff_toNat_lt, ← UInt8.toNat_inj, UInt8.reduceToNat]
  split_ifs <;> first | rfl | omega

/-- The ranges that a lead byte asks for, by the number of bytes that it announces. -/
theorem tails?_cases {lead : UInt8} {ranges : List ByteRange} (h : tails? lead = some ranges) :
    (lead.toNat < 128 ∧ ranges = []) ∨
    (∃ n < 32, 2 ≤ n ∧ lead.toNat = n + 0xc0 ∧ ranges = [continuation]) ∨
    (∃ n < 16, lead.toNat = n + 0xe0 ∧ ranges =
      [(if n = 0 then 0xA0 else 0x80, if n = 13 then 0x9F else 0xBF), continuation]) ∨
    (∃ n < 5, lead.toNat = n + 0xf0 ∧ ranges =
      [(if n = 0 then 0x90 else 0x80, if n = 4 then 0x8F else 0xBF), continuation,
        continuation]) := by
  have hlt : lead.toNat < 256 := lead.toNat_lt
  have hof {n : Nat} (hn : lead.toNat = n) : UInt8.ofNat n = lead := by
    rw [← hn, UInt8.ofNat_toNat]
  by_cases h₁ : lead.toNat < 128
  · have ht := tails?_one lead.toNat h₁
    rw [hof rfl, h] at ht
    exact .inl ⟨h₁, Option.some.inj ht⟩
  by_cases h₂ : lead.toNat < 0xC2 ∨ 0xF4 < lead.toNat
  · rw [tails?_none (by omega)] at h
    cases h
  by_cases h₃ : lead.toNat < 0xE0
  · have hl : lead.toNat = (lead.toNat - 0xc0) + 0xc0 := by omega
    have ht := tails?_two (lead.toNat - 0xc0) (by omega) (by omega)
    rw [hof hl, h] at ht
    exact .inr (.inl ⟨_, by omega, by omega, hl, Option.some.inj ht⟩)
  by_cases h₄ : lead.toNat < 0xF0
  · have hl : lead.toNat = (lead.toNat - 0xe0) + 0xe0 := by omega
    have ht := tails?_three (lead.toNat - 0xe0) (by omega)
    rw [hof hl, h] at ht
    exact .inr (.inr (.inl ⟨_, by omega, hl, Option.some.inj ht⟩))
  · have hl : lead.toNat = (lead.toNat - 0xf0) + 0xf0 := by omega
    have ht := tails?_four (lead.toNat - 0xf0) (by omega)
    rw [hof hl, h] at ht
    exact .inr (.inr (.inr ⟨_, by omega, hl, Option.some.inj ht⟩))

theorem eq_cons_of_agreeing {r : ByteRange} {rs : List ByteRange} {bs : List UInt8}
    (h : agreeing (r :: rs) bs = rs.length + 1) :
    ∃ b bs', bs = b :: bs' ∧ (r.1 ≤ b ∧ b ≤ r.2) ∧ agreeing rs bs' = rs.length := by
  obtain ⟨lo, hi⟩ := r
  cases bs with
  | nil => cases h
  | cons b bs =>
    rw [agreeing] at h
    split_ifs at h with hb
    exact ⟨b, bs, rfl, hb, by omega⟩

theorem val_ofNat {v : Nat} (h : v < 0xD800 ∨ 0xDFFF < v ∧ v < 0x110000) :
    (Char.ofNat v).val.toNat = v := by
  rw [Char.ofNat, dif_pos h]
  rfl

theorem toNat_mod_of_continuation {b : UInt8} (h : continuation.1 ≤ b ∧ b ≤ continuation.2) :
    b.toNat = b.toNat % 64 + 0x80 := by
  simp only [continuation, UInt8.le_iff_toNat_le, UInt8.reduceToNat] at h
  omega

/-- The bytes of a sequence are the encoding of its code point. -/
theorem encode_codePoint {lead : UInt8} {t : List UInt8} {ranges : List ByteRange}
    (ht : tails? lead = some ranges) (hl : t.length = ranges.length)
    (ha : agreeing ranges t = ranges.length) :
    String.utf8EncodeChar (Char.ofNat (codePoint lead t)) = lead :: t := by
  obtain ⟨h, rfl⟩ | ⟨n, hn, hn', h, rfl⟩ | ⟨n, hn, h, rfl⟩ | ⟨n, hn, h, rfl⟩ := tails?_cases ht
  · obtain rfl := List.eq_nil_of_length_eq_zero hl
    have hv : codePoint lead [] = lead.toNat := rfl
    rw [hv, String.utf8EncodeChar, val_ofNat (by omega), if_pos (by omega), UInt8.ofNat_toNat]
  · obtain ⟨b, t, rfl, hb, -⟩ := eq_cons_of_agreeing ha
    obtain rfl := List.eq_nil_of_length_eq_zero (Nat.succ.inj hl)
    have hv : codePoint lead [b] = lead.toNat % 32 * 64 + b.toNat % 64 := rfl
    have hb' := toNat_mod_of_continuation hb
    rw [hv, String.utf8EncodeChar, val_ofNat (by omega), if_neg (by omega), if_pos (by omega)]
    congr <;> apply UInt8.toNat_inj.1 <;> rw [UInt8.toNat_ofNat'] <;> omega
  · obtain ⟨b, t, rfl, hb, ha⟩ := eq_cons_of_agreeing ha
    obtain ⟨c, t, rfl, hc, -⟩ := eq_cons_of_agreeing ha
    obtain rfl := List.eq_nil_of_length_eq_zero (Nat.succ.inj (Nat.succ.inj hl))
    have hv : codePoint lead [b, c] =
      (lead.toNat % 16 * 64 + b.toNat % 64) * 64 + c.toNat % 64 := rfl
    have hc' := toNat_mod_of_continuation hc
    have hb' : 128 ≤ b.toNat ∧ b.toNat ≤ 191 ∧ (n = 0 → 160 ≤ b.toNat) ∧
        (n = 13 → b.toNat ≤ 159) := by
      dsimp only at hb
      split_ifs at hb <;> simp only [UInt8.le_iff_toNat_le, UInt8.reduceToNat] at hb <;> omega
    rw [hv, String.utf8EncodeChar, val_ofNat (by omega), if_neg (by omega), if_neg (by omega), if_pos (by omega)]
    congr <;> apply UInt8.toNat_inj.1 <;> rw [UInt8.toNat_ofNat'] <;> omega
  · obtain ⟨b, t, rfl, hb, ha⟩ := eq_cons_of_agreeing ha
    obtain ⟨c, t, rfl, hc, ha⟩ := eq_cons_of_agreeing ha
    obtain ⟨d, t, rfl, hd, -⟩ := eq_cons_of_agreeing ha
    obtain rfl := List.eq_nil_of_length_eq_zero (Nat.succ.inj (Nat.succ.inj (Nat.succ.inj hl)))
    have hv : codePoint lead [b, c, d] =
      ((lead.toNat % 8 * 64 + b.toNat % 64) * 64 + c.toNat % 64) * 64 + d.toNat % 64 := rfl
    have hc' := toNat_mod_of_continuation hc
    have hd' := toNat_mod_of_continuation hd
    have hb' : 128 ≤ b.toNat ∧ b.toNat ≤ 191 ∧ (n = 0 → 144 ≤ b.toNat) ∧
        (n = 4 → b.toNat ≤ 143) := by
      dsimp only at hb
      split_ifs at hb <;> simp only [UInt8.le_iff_toNat_le, UInt8.reduceToNat] at hb <;> omega
    rw [hv, String.utf8EncodeChar, val_ofNat (by omega), if_neg (by omega), if_neg (by omega), if_neg (by omega)]
    congr <;> apply UInt8.toNat_inj.1 <;> rw [UInt8.toNat_ofNat'] <;> omega

theorem agreeing_append {rs : List ByteRange} {bs : List UInt8} (h : rs.length ≤ bs.length)
    (more : List UInt8) : agreeing rs (bs ++ more) = agreeing rs bs := by
  induction rs generalizing bs with
  | nil => rw [agreeing_nil, agreeing_nil]
  | cons r rs ih =>
    cases bs with
    | nil => exact absurd h (Nat.not_succ_le_zero _)
    | cons b bs => rw [List.cons_append, agreeing, agreeing, ih (Nat.le_of_succ_le_succ h)]

theorem decodeHead_badLead {lead : UInt8} (ht : tails? lead = none) (t : List UInt8) :
    decodeHead (lead :: t) = .error (.badLead lead) := by
  rw [decodeHead, ht]

theorem decodeHead_lead {lead : UInt8} {ranges : List ByteRange} (ht : tails? lead = some ranges)
    (t : List UInt8) : decodeHead (lead :: t) =
      if t.length < ranges.length then .error .truncated
      else if agreeing ranges t < ranges.length then .error (.badSequence (agreeing ranges t + 1))
      else .ok (some (Char.ofNat (codePoint lead (t.take ranges.length)),
        t.drop ranges.length)) := by
  have hle := agreeing_le ranges t
  rw [decodeHead, ht]
  dsimp only
  split_ifs with h₁ h₂
  · rfl
  · rfl
  · rw [show agreeing ranges t = ranges.length by omega]

/-- **What is decoded is the encoding of the character found**, and the bytes after it. -/
theorem eq_encode_of_decodeHead {bs rest : List UInt8} {c : Char}
    (h : decodeHead bs = .ok (some (c, rest))) : bs = String.utf8EncodeChar c ++ rest := by
  match bs, h with
  | lead :: t, h =>
    match ht : tails? lead with
    | none =>
      rw [decodeHead_badLead ht] at h
      cases h
    | some ranges =>
      rw [decodeHead_lead ht] at h
      split_ifs at h with h₁ h₂
      simp only [Except.ok.injEq, Option.some.injEq, Prod.mk.injEq] at h
      have hl : (t.take ranges.length).length = ranges.length := by
        rw [List.length_take]
        omega
      have ha : agreeing ranges (t.take ranges.length) = ranges.length := by
        rw [← agreeing_append (Nat.le_of_eq hl.symm) (t.drop ranges.length), List.take_append_drop]
        have := agreeing_le ranges t
        omega
      rw [← h.1, ← h.2, encode_codePoint ht hl ha, List.cons_append, List.take_append_drop]

/-- Once the bytes that the lead byte announces are at hand, further bytes change nothing. -/
theorem decodeHead_append {bs : List UInt8} (hne : bs ≠ []) (hw : width bs ≤ bs.length)
    (more : List UInt8) : decodeHead (bs ++ more) =
      (decodeHead bs).map (Option.map fun p => (p.1, p.2 ++ more)) := by
  obtain ⟨lead, t, rfl⟩ := List.exists_cons_of_ne_nil hne
  rw [width] at hw
  rw [List.cons_append]
  cases ht : tails? lead with
  | none =>
    rw [decodeHead_badLead ht, decodeHead_badLead ht]
    rfl
  | some ranges =>
    simp only [ht, List.length_cons, Nat.add_le_add_iff_right] at hw
    have hlong : ¬ (t ++ more).length < ranges.length := by
      rw [List.length_append]
      omega
    rw [decodeHead_lead ht, decodeHead_lead ht, agreeing_append hw, if_neg hlong,
      if_neg (Nat.not_lt.2 hw), List.take_append_of_le_length hw,
      List.drop_append_of_le_length hw]
    split <;> rfl

theorem width_pos {bs : List UInt8} (h : bs ≠ []) : 0 < width bs := by
  match bs, h with
  | b :: bs, _ =>
    rw [width]
    split <;> exact Nat.succ_pos _

/-- A decoding error is none of a feed's failures. -/
theorem kind_of_decodeHead {bs : List UInt8} {e : ReadError} (h : decodeHead bs = .error e) :
    e.kind = .invalidData ∧ ∀ k t, e ≠ .device k t := by
  match bs, h with
  | lead :: t, h =>
    match ht : tails? lead with
    | none =>
      rw [decodeHead_badLead ht] at h
      cases h
      exact ⟨rfl, nofun⟩
    | some ranges =>
      rw [decodeHead_lead ht] at h
      split_ifs at h <;> cases h <;> exact ⟨rfl, nofun⟩

theorem eq_nil_of_decodeHead {bs : List UInt8} (h : decodeHead bs = .ok none) : bs = [] := by
  match bs, h with
  | [], _ => rfl
  | lead :: t, h =>
    match ht : tails? lead with
    | none =>
      rw [decodeHead_badLead ht] at h
      cases h
    | some ranges =>
      rw [decodeHead_lead ht] at h
      split_ifs at h
      cases h

/-! ## The longest text -/

/-- The bytes start with the text `cs` and with no longer one, and go on with `rest`. -/
structure Splits (bytes : List UInt8) (cs : List Char) (rest : List UInt8) : Prop where
  /-- The encoding of the text, and the rest, make up the bytes. -/
  eq : encode cs ++ rest = bytes
  /-- Any text with which the bytes start is a part of it. -/
  longest : ∀ ds, encode ds <+: bytes → ds <+: cs

/-- No character can be decoded from the start of the bytes. -/
def Stuck (bytes : List UInt8) : Prop := ∀ c rest, decodeHead bytes ≠ .ok (some (c, rest))

theorem splits_nil {bytes : List UInt8} (h : Stuck bytes) : Splits bytes [] bytes where
  eq := rfl
  longest ds hd := by
    cases ds with
    | nil => exact List.nil_prefix
    | cons d ds =>
      obtain ⟨more, rfl⟩ := hd
      rw [encode_cons, List.append_assoc] at h
      exact absurd (decodeHead_encode d _) (h d _)

theorem Splits.cons {bytes rest : List UInt8} {cs : List Char} (c : Char)
    (h : Splits bytes cs rest) : Splits (String.utf8EncodeChar c ++ bytes) (c :: cs) rest where
  eq := by rw [encode_cons, List.append_assoc, h.eq]
  longest ds hd := by
    cases ds with
    | nil => exact List.nil_prefix
    | cons d ds =>
      obtain ⟨more, hm⟩ := hd
      rw [encode_cons, List.append_assoc] at hm
      -- both sides start with one character, and decoding finds it
      have hdc := decodeHead_encode d (encode ds ++ more)
      rw [hm, decodeHead_encode] at hdc
      simp only [Except.ok.injEq, Option.some.injEq, Prod.mk.injEq] at hdc
      rw [hdc.1]
      exact (List.prefix_cons_inj d).2 (h.longest ds ⟨more, hdc.2.symm⟩)

theorem splits_of_stuck {rest : List UInt8} (h : Stuck rest) (cs : List Char) :
    Splits (encode cs ++ rest) cs rest := by
  induction cs with
  | nil => exact splits_nil h
  | cons c cs ih =>
    rw [encode_cons, List.append_assoc]
    exact ih.cons c

/-- **Any bytes start with some longest text**, after which nothing can be decoded. -/
theorem exists_splits (bytes : List UInt8) : ∃ cs rest, Splits bytes cs rest ∧ Stuck rest := by
  induction hn : bytes.length using Nat.strongRecOn generalizing bytes with
  | ind n ih =>
    by_cases h : Stuck bytes
    · exact ⟨[], bytes, splits_nil h, h⟩
    · obtain ⟨c, hc⟩ := Classical.not_forall.1 h
      obtain ⟨more, hd⟩ := Classical.not_forall.1 hc
      replace hd := Classical.not_not.1 hd
      obtain ⟨cs, rest, hs, hr⟩ := ih more.length (hn ▸ length_lt_of_decodeHead hd) more rfl
      rw [eq_encode_of_decodeHead hd]
      exact ⟨c :: cs, rest, hs.cons c, hr⟩

theorem Splits.unique {bytes rest rest' : List UInt8} {cs cs' : List Char}
    (h : Splits bytes cs rest) (h' : Splits bytes cs' rest') : cs = cs' ∧ rest = rest' := by
  have hc : cs = cs' := (h'.longest cs ⟨rest, h.eq⟩).eq_of_length_le
    (h.longest cs' ⟨rest', h'.eq⟩).length_le
  subst hc
  exact ⟨rfl, List.append_cancel_left (h.eq.trans h'.eq.symm)⟩

end Utf8

/-! ## Feeds with failures -/

namespace Feed

/-- All bytes of a feed. -/
def content : Feed → List UInt8
  | [] => []
  | .failure _ _ :: rest => content rest
  | .bytes bs :: rest => bs ++ content rest

/-- All failures of a feed. -/
def failures : Feed → List (ReadErrorKind × String)
  | [] => []
  | .failure kind text :: rest => (kind, text) :: failures rest
  | .bytes _ :: rest => failures rest

/-- No piece is empty. -/
def Solid (feed : Feed) : Prop := Supply.bytes [] ∉ feed

instance (feed : Feed) : Decidable feed.Solid := inferInstanceAs (Decidable (_ ∉ _))

/-- What a read from a feed without empty pieces can come to. -/
theorem Solid.read_cases {feed : Feed} (h : feed.Solid) {room : Nat} (hr : 0 < room) :
    (feed = [] ∧ feed.read room = .ok [] []) ∨
    (∃ k t feed', feed.read room = .error (.device k t) feed' ∧ feed'.Solid ∧
      feed.content = feed'.content ∧ feed.failures = (k, t) :: feed'.failures) ∨
    (∃ b bs feed', feed.read room = .ok (b :: bs) feed' ∧ feed'.Solid ∧
      feed.content = b :: bs ++ feed'.content ∧ feed.failures = feed'.failures) := by
  cases feed with
  | nil => exact .inl ⟨rfl, rfl⟩
  | cons piece rest =>
    have hrest : Solid rest := fun hm => h (List.mem_cons_of_mem _ hm)
    cases piece with
    | failure k t => exact .inr (.inl ⟨k, t, rest, rfl, hrest, rfl, rfl⟩)
    | bytes bs =>
      obtain ⟨n, rfl⟩ : ∃ n, room = n + 1 := ⟨room - 1, by omega⟩
      cases bs with
      | nil => exact absurd List.mem_cons_self h
      | cons b bs =>
        cases hd : bs.drop n with
        | nil =>
          exact .inr (.inr ⟨b, bs, rest, by rw [read, List.drop_succ_cons, hd], hrest, rfl, rfl⟩)
        | cons x xs =>
          refine .inr (.inr ⟨b, bs.take n, .bytes (x :: xs) :: rest, ?_, ?_, ?_, rfl⟩)
          · rw [read, List.drop_succ_cons, hd]
            rfl
          · intro hm
            rcases List.mem_cons.1 hm with heq | hm
            · cases heq
            · exact hrest hm
          · have hbs : b :: bs = b :: bs.take n ++ x :: xs := by
              rw [List.cons_append, ← hd, List.take_append_drop]
            rw [content, content, hbs, List.append_assoc]

end Feed

/-! ## Calls of the decoder -/

section Attempt

variable {ε σ α β : Type} {m : EStateM ε σ α} {f : α → EStateM ε σ β} {s s' : σ}

theorem attempt_bind_ok {a : α} (h : m s = .ok a s') :
    attempt (m >>= f) s = attempt (f a) s' := by
  simp only [attempt, bind, EStateM.bind, h]

theorem attempt_bind_error {e : ε} (h : m s = .error e s') :
    attempt (m >>= f) s = .ok (.error e) s' := by
  simp only [attempt, bind, EStateM.bind, h]

end Attempt

namespace Decoder

/-- What a decoder has in store: the bytes to be decoded, pending ones first, and the failures to
be reported. -/
structure Arrives (bytes : List UInt8) (failures : List (ReadErrorKind × String)) (d : Decoder) :
    Prop where
  solid : d.feed.Solid
  content : d.pending ++ d.feed.content = bytes
  failures : d.feed.failures = failures

variable {bytes : List UInt8} {fs : List (ReadErrorKind × String)} {d : Decoder}

/-- Filling gets the bytes that are wanted, or all there are, unless a failure comes first. -/
theorem fill_cases {want : Nat} (hw : want ≤ capacity) (h : d.Arrives bytes fs) :
    (∃ d', fill want d = .ok () d' ∧ d'.Arrives bytes fs ∧
      (want ≤ d'.pending.length ∨ d'.pending = bytes)) ∨
    (∃ k t fs' d', fill want d = .error (.device k t) d' ∧ d'.Arrives bytes fs' ∧
      fs = (k, t) :: fs') := by
  unfold fill
  generalize () = u
  induction u, d using loop_induct (fillTurn_draws want) with
  | step u d ih =>
    rw [loop_eq]
    by_cases hlt : d.pending.length < want
    · have hroom : 0 < capacity - d.pending.length := by omega
      obtain ⟨hnil, hr⟩ | ⟨k, t, feed, hr, hs, hc, hf⟩ | ⟨b, bs, feed, hr, hs, hc, hf⟩ :=
        h.solid.read_cases hroom
      · have hturn : fillTurn want d = .ok (.done ()) { d with feed := [] } := by
          rw [fillTurn, if_pos hlt, hr]
        rw [hturn]
        have hp : d.pending = bytes := by
          rw [← h.content, hnil]
          exact (List.append_nil _).symm
        have ha : Arrives bytes fs { d with feed := [] } := by
          rw [← hnil]
          exact h
        exact .inl ⟨_, rfl, ha, .inr hp⟩
      · have hturn : fillTurn want d = .error (.device k t) { d with feed } := by
          rw [fillTurn, if_pos hlt, hr]
        rw [hturn]
        exact .inr ⟨k, t, _, _, rfl, ⟨hs, hc ▸ h.content, rfl⟩, h.failures.symm.trans hf⟩
      · have hturn : fillTurn want d =
            .ok (.again ()) { pending := d.pending ++ b :: bs, feed } := by
          rw [fillTurn, if_pos hlt, hr]
        rw [hturn]
        refine ih _ _ hturn ⟨hs, ?_, hf ▸ h.failures⟩
        rw [List.append_assoc, ← hc, h.content]
    · have hturn : fillTurn want d = .ok (.done ()) d := by rw [fillTurn, if_neg hlt]
      rw [hturn]
      exact .inl ⟨d, rfl, h, .inl (by omega)⟩

/-- What a decoder with all these bytes at hand answers, and the bytes that it has left. -/
def answer (bytes : List UInt8) : Except ReadError (Option Char) × List UInt8 :=
  match Utf8.decodeHead bytes with
  | .error e => (.error e, bytes)
  | .ok none => (.ok none, bytes)
  | .ok (some (c, rest)) => (.ok (some c), rest)

/-- With the bytes of a character pending, or all there are, the others do not matter. -/
theorem attempt_takeChar {more : List UInt8} (hb : d.pending ++ more = bytes)
    (hfull : (d.pending ≠ [] ∧ Utf8.width d.pending ≤ d.pending.length) ∨ d.pending = bytes) :
    ∃ pending, attempt takeChar d = .ok (answer bytes).1 { d with pending } ∧
      pending ++ more = (answer bytes).2 := by
  have hd : Utf8.decodeHead bytes =
      (Utf8.decodeHead d.pending).map (Option.map fun p => (p.1, p.2 ++ more)) := by
    rcases hfull with ⟨hne, hw⟩ | hp
    · rw [← hb]
      exact Utf8.decodeHead_append hne hw _
    · have hc : more = [] := by rwa [hp, List.append_right_eq_self] at hb
      rw [hc, hp]
      simp only [List.append_nil, Option.map_id_fun', Except.map_id, id_eq]
  unfold attempt takeChar answer
  rw [hd]
  match Utf8.decodeHead d.pending with
  | .error e => exact ⟨d.pending, rfl, hb⟩
  | .ok none => exact ⟨d.pending, rfl, hb⟩
  | .ok (some (c, rest)) => exact ⟨rest, rfl, rfl⟩

/-- After the first byte has been got, and then as many as it asks for, a character is at hand. -/
theorem full_of_fills {p₁ p₂ m₁ m₂ : List UInt8} (h₁ : p₁ ++ m₁ = bytes) (h₂ : p₂ ++ m₂ = bytes)
    (hfull₁ : 1 ≤ p₁.length ∨ p₁ = bytes) (hfull₂ : Utf8.width p₁ ≤ p₂.length ∨ p₂ = bytes) :
    (p₂ ≠ [] ∧ Utf8.width p₂ ≤ p₂.length) ∨ p₂ = bytes := by
  by_cases hp : p₂ = bytes
  · exact .inr hp
  have hb : bytes ≠ [] := by
    intro hb
    rw [hb, List.append_eq_nil_iff] at h₂
    exact hp (h₂.1.trans hb.symm)
  have hne₁ : p₁ ≠ [] := by
    intro hnil
    rw [hnil] at hfull₁
    exact hfull₁.elim (absurd · (by decide)) fun hall => hb hall.symm
  have hlen := hfull₂.resolve_right hp
  have hne₂ : p₂ ≠ [] := by
    intro hnil
    have hpos := Utf8.width_pos hne₁
    rw [hnil, List.length_nil] at hlen
    omega
  -- the width that was asked for is that of all bytes, hence of those now pending
  refine .inl ⟨hne₂, ?_⟩
  rwa [← Utf8.width_append hne₂ m₂, h₂, ← h₁, Utf8.width_append hne₁]

/-- **One call** reports the next failure of the feed, or answers as if all bytes were at hand. -/
theorem read_cases (h : d.Arrives bytes fs) :
    (∃ k t fs' d', attempt read d = .ok (.error (.device k t)) d' ∧ d'.Arrives bytes fs' ∧
      fs = (k, t) :: fs') ∨
    (∃ d', attempt read d = .ok (answer bytes).1 d' ∧ d'.Arrives (answer bytes).2 fs) := by
  unfold read
  obtain ⟨d₁, h₁, ha₁, hfull₁⟩ | ⟨k, t, fs', d', h₁, ha₁, hfs⟩ :=
    fill_cases (by decide : 1 ≤ capacity) h
  · rw [attempt_bind_ok h₁, attempt_bind_ok (m := get) (a := d₁) rfl]
    obtain ⟨d₂, h₂, ha₂, hfull₂⟩ | ⟨k, t, fs', d', h₂, ha₂, hfs⟩ :=
      fill_cases (Utf8.width_le d₁.pending) ha₁
    · rw [attempt_bind_ok h₂]
      obtain ⟨pending, htake, hpending⟩ := attempt_takeChar ha₂.content
        (full_of_fills ha₁.content ha₂.content hfull₁ hfull₂)
      exact .inr ⟨_, htake, ha₂.solid, hpending, ha₂.failures⟩
    · rw [attempt_bind_error h₂]
      exact .inl ⟨k, t, fs', d', rfl, ha₂, hfs⟩
  · rw [attempt_bind_error h₁]
    exact .inl ⟨k, t, fs', d', rfl, ha₁, hfs⟩

/-- So many calls, each with its answer. -/
def calls : Nat → EStateM ReadError Decoder (List (Except ReadError (Option Char)))
  | 0 => return []
  | n + 1 => do
    let first ← attempt read
    return first :: (← calls n)

/-- The failure of the feed that an answer reports. -/
def reported : Except ReadError (Option Char) → Option (ReadErrorKind × String)
  | .error (.device kind text) => some (kind, text)
  | _ => none

/-- The character that an answer gives. -/
def given : Except ReadError (Option Char) → Option Char
  | .ok c => c
  | .error _ => none

/-- The first `k` answers about a text that ends in one answer for ever. -/
def script (cs : List Char) (final : Except ReadError (Option Char)) (k : Nat) :
    List (Except ReadError (Option Char)) :=
  (cs.take k).map (fun c => .ok (some c)) ++ List.replicate (k - cs.length) final

theorem script_cons (c : Char) (cs : List Char) (final : Except ReadError (Option Char)) (k : Nat) :
    script (c :: cs) final (k + 1) = .ok (some c) :: script cs final k := by
  rw [script, script, List.take_succ_cons, List.length_cons, Nat.add_sub_add_right]
  rfl

theorem script_nil (final : Except ReadError (Option Char)) (k : Nat) :
    script [] final (k + 1) = final :: script [] final k := by
  simp [script, List.replicate_succ]

/-- The answer when the text is used up: the end of the input if no bytes are left, and otherwise a
decoding error. -/
def Final (rest : List UInt8) (final : Except ReadError (Option Char)) : Prop :=
  (rest = [] ∧ final = .ok none) ∨
    (rest ≠ [] ∧ ∃ e : ReadError, final = .error e ∧ e.kind = .invalidData ∧ ∀ k t, e ≠ .device k t)

theorem Final.reported_given {rest : List UInt8} {final : Except ReadError (Option Char)}
    (h : Final rest final) : reported final = none ∧ given final = none := by
  obtain ⟨-, rfl⟩ | ⟨-, e, rfl, -, he⟩ := h
  · exact ⟨rfl, rfl⟩
  · refine ⟨?_, rfl⟩
    unfold reported
    split
    · next k t heq => exact absurd (Except.error.inj heq) (he k t)
    · rfl

theorem answer_encode (c : Char) (bytes : List UInt8) :
    answer (String.utf8EncodeChar c ++ bytes) = (.ok (some c), bytes) := by
  rw [answer, Utf8.decodeHead_encode]

theorem answer_of_stuck {rest : List UInt8} (h : Utf8.Stuck rest) :
    Final rest (answer rest).1 ∧ (answer rest).2 = rest := by
  unfold answer
  match hd : Utf8.decodeHead rest with
  | .error e =>
    have hne : rest ≠ [] := by
      intro hnil
      rw [hnil] at hd
      cases hd
    exact ⟨.inr ⟨hne, e, rfl, Utf8.kind_of_decodeHead hd⟩, rfl⟩
  | .ok none => exact ⟨.inl ⟨Utf8.eq_nil_of_decodeHead hd, rfl⟩, rfl⟩
  | .ok (some (c, more)) => exact absurd hd (h c more)

/-- What a list of answers says about a text, the answer `final` after it, some bytes and some
failures, `d` being the decoder as it is left. -/
structure Answered (cs : List Char) (final : Except ReadError (Option Char)) (bytes : List UInt8)
    (fs : List (ReadErrorKind × String)) (rs : List (Except ReadError (Option Char)))
    (d : Decoder) : Prop where
  /-- Answers that report no failure give the text, character by character, and then the final
  answer again and again. -/
  script : rs.filter (fun r => (reported r).isNone) =
    script cs final (rs.length - (rs.filterMap reported).length)
  /-- A failure is reported once, or still to come. -/
  failures : rs.filterMap reported ++ d.feed.failures = fs
  /-- A byte is part of one character given, or still to be decoded. -/
  bytes : Utf8.encode (rs.filterMap given) ++ (d.pending ++ d.feed.content) = bytes

theorem Arrives.answered (h : d.Arrives bytes fs) (cs : List Char)
    (final : Except ReadError (Option Char)) : Answered cs final bytes fs [] d where
  script := by simp [Decoder.script]
  failures := h.failures
  bytes := h.content

namespace Answered

variable {cs : List Char} {final : Except ReadError (Option Char)}
  {rs : List (Except ReadError (Option Char))}

theorem report (k : ReadErrorKind) (t : String) (h : Answered cs final bytes fs rs d) :
    Answered cs final bytes ((k, t) :: fs) (.error (.device k t) :: rs) d where
  script := by
    have := h.script
    simpa [reported] using this
  failures := congrArg ((k, t) :: ·) h.failures
  bytes := h.bytes

theorem length_cons_sub (r : Except ReadError (Option Char))
    (rs : List (Except ReadError (Option Char))) :
    (r :: rs).length - (rs.filterMap reported).length =
      (rs.length - (rs.filterMap reported).length) + 1 := by
  have := List.length_filterMap_le reported rs
  rw [List.length_cons]
  omega

theorem char (c : Char) (h : Answered cs final bytes fs rs d) :
    Answered (c :: cs) final (String.utf8EncodeChar c ++ bytes) fs (.ok (some c) :: rs) d where
  script := by
    rw [List.filter_cons_of_pos rfl, List.filterMap_cons_none rfl, length_cons_sub, script_cons,
      h.script]
  failures := h.failures
  bytes := by
    change Utf8.encode (c :: rs.filterMap given) ++ _ = _
    rw [Utf8.encode_cons, List.append_assoc, h.bytes]

theorem ended {rest : List UInt8} (hf : Final rest final)
    (h : Answered [] final bytes fs rs d) : Answered [] final bytes fs (final :: rs) d where
  script := by
    rw [List.filter_cons_of_pos (by rw [hf.reported_given.1]; rfl),
      List.filterMap_cons_none hf.reported_given.1, length_cons_sub, script_nil, h.script]
  failures := by rw [List.filterMap_cons_none hf.reported_given.1, h.failures]
  bytes := by rw [List.filterMap_cons_none hf.reported_given.2, h.bytes]

end Answered

/-- Calls of a decoder that holds a text, and after it bytes at which decoding is stuck. -/
theorem calls_gives {rest : List UInt8} (hr : Utf8.Stuck rest) (n : Nat) (cs : List Char)
    (h : d.Arrives (Utf8.encode cs ++ rest) fs) :
    ∃ rs d', calls n d = .ok rs d' ∧ rs.length = n ∧
      Answered cs (answer rest).1 (Utf8.encode cs ++ rest) fs rs d' := by
  induction n generalizing cs fs d with
  | zero => exact ⟨[], d, rfl, rfl, h.answered cs _⟩
  | succ n ih =>
    have hcalls {a : Except ReadError (Option Char)} {d₁ d₂ : Decoder}
        {rs : List (Except ReadError (Option Char))} (h₁ : attempt read d = .ok a d₁)
        (h₂ : calls n d₁ = .ok rs d₂) : calls (n + 1) d = .ok (a :: rs) d₂ := by
      simp only [calls, bind, EStateM.bind, h₁, h₂, pure, EStateM.pure]
    obtain ⟨k, t, fs', d₁, h₁, ha, rfl⟩ | ⟨d₁, h₁, ha⟩ := read_cases h
    · obtain ⟨rs, d₂, h₂, hlen, hrs⟩ := ih cs ha
      exact ⟨_, d₂, hcalls h₁ h₂, congrArg (· + 1) hlen, hrs.report k t⟩
    · cases cs with
      | nil =>
        obtain ⟨hfinal, hrest⟩ := answer_of_stuck hr
        rw [Utf8.encode_nil, List.nil_append] at h₁ ha ⊢
        rw [hrest] at ha
        obtain ⟨rs, d₂, h₂, hlen, hrs⟩ := ih [] ha
        exact ⟨_, d₂, hcalls h₁ h₂, congrArg (· + 1) hlen, hrs.ended hfinal⟩
      | cons c cs =>
        rw [Utf8.encode_cons, List.append_assoc] at h₁ ha ⊢
        rw [answer_encode] at h₁ ha
        obtain ⟨rs, d₂, h₂, hlen, hrs⟩ := ih cs ha
        exact ⟨_, d₂, hcalls h₁ h₂, congrArg (· + 1) hlen, hrs.char c⟩

/-- **How bytes arrive does not matter.** They start with a longest text, and repeated calls give
its characters in order and then one answer for ever: the end of the input, or a decoding error.
Whatever the pieces in which the bytes come, and whatever failures come between them, a failure takes
up one call and changes none of the other answers. -/
theorem calls_of_arrival (bytes : List UInt8) :
    ∃ cs rest final, Utf8.Splits bytes cs rest ∧ Final rest final ∧
      ∀ feed : Feed, feed.Solid → feed.content = bytes → ∀ n,
        ∃ rs d, calls n (ofFeed feed) = .ok rs d ∧ rs.length = n ∧
          Answered cs final bytes feed.failures rs d := by
  obtain ⟨cs, rest, hs, hr⟩ := Utf8.exists_splits bytes
  refine ⟨cs, rest, (answer rest).1, hs, (answer_of_stuck hr).1, ?_⟩
  intro feed hsolid hcontent n
  have ha : (ofFeed feed).Arrives (Utf8.encode cs ++ rest) feed.failures :=
    ⟨hsolid, hcontent.trans hs.eq.symm, rfl⟩
  rw [← hs.eq]
  exact calls_gives hr n cs ha

/-- The bytes of a character may be torn apart by a failure: four calls on `é` and a byte that leads
nothing report the failure, give the character, and fail twice. -/
theorem calls_of_torn_character :
    let feed : Feed := [.bytes [0xC3], .failure .interrupted "again", .bytes [0xA9, 0xFF]]
    feed.Solid ∧ feed.content = [0xC3, 0xA9, 0xFF] ∧
      ∃ final rs d, Final [0xFF] final ∧ calls 4 (ofFeed feed) = .ok rs d ∧ rs.length = 4 ∧
        Answered ['é'] final [0xC3, 0xA9, 0xFF] [(.interrupted, "again")] rs d := by
  obtain ⟨cs, rest, final, hs, hf, h⟩ := calls_of_arrival [0xC3, 0xA9, 0xFF]
  have hstuck : Utf8.Stuck [0xFF] := by
    intro c more hd
    cases hd
  obtain ⟨rfl, rfl⟩ := hs.unique (Utf8.splits_of_stuck hstuck ['é'])
  obtain ⟨rs, d, hrs⟩ := h [.bytes [0xC3], .failure .interrupted "again", .bytes [0xA9, 0xFF]]
    (by decide) rfl 4
  exact ⟨by decide, rfl, final, rs, d, hf, hrs⟩

end Decoder

end Pretoken
