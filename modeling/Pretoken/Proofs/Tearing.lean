import Pretoken.Proofs.Arrival
import Pretoken.Proofs.Closing

/-!
# Text that breaks off

The bytes of a file may start with a text and go on with bytes that are none. A file gives the text as
far as it can tell it, and then a fault at the place that it has come to. So does a lexer.

* `Text.beforeTear`: what is given of a text before a tear. A carriage return at its very end is lost.
* **`LineReader.leads_torn`**: a reader gives this, and then fails.
* `File.drain_torn`, **`Lexer.tokens_torn`**: a file and a lexer report the same place.
* **`Lexer.fault_of_tear`**: the place of the fault is the end of the text, unless the text ends in a
  carriage return.
-/

namespace Pretoken

/-! ## Decoders -/

section Attempt

variable {ε σ α : Type} {m : EStateM ε σ α} {s s' : σ}

theorem error_of_attempt {e : ε} (h : attempt m s = .ok (.error e) s') : m s = .error e s' := by
  unfold attempt at h
  match hm : m s with
  | .ok _ _ =>
    rw [hm] at h
    cases h
  | .error _ _ =>
    rw [hm] at h
    cases h
    rfl

end Attempt

theorem Utf8.stuck_of_lead {lead : UInt8} (h : tails? lead = none) (more : List UInt8) :
    Stuck (lead :: more) := by
  intro c rest hd
  rw [decodeHead_badLead h] at hd
  cases hd

namespace Decoder

/-- A decoder whose feed never fails answers as if all bytes were at hand. -/
theorem read_answers {bytes : List UInt8} {d : Decoder} (h : d.Holds bytes) :
    ∃ d', attempt read d = .ok (answer bytes).1 d' ∧ d'.Holds (answer bytes).2 := by
  unfold read
  obtain ⟨_, d₁, h₁, ⟨m₁, hs₁, hb₁⟩, hfull₁⟩ := fill_meets (by decide : 1 ≤ capacity) bytes d h
  rw [attempt_bind_ok h₁, attempt_bind_ok (m := get) (a := d₁) rfl]
  obtain ⟨_, d₂, h₂, ⟨m₂, hs₂, hb₂⟩, hfull₂⟩ :=
    fill_meets (Utf8.width_le d₁.pending) bytes d₁ ⟨m₁, hs₁, hb₁⟩
  rw [attempt_bind_ok h₂]
  obtain ⟨pending, htake, hpending⟩ := attempt_takeChar hb₂ (full_of_fills hb₁ hb₂ hfull₁ hfull₂)
  exact ⟨_, htake, m₂, hs₂, hpending⟩

theorem read_stuck {rest : List UInt8} (hr : Utf8.Stuck rest) (hne : rest ≠ []) {d : Decoder}
    (h : d.Holds rest) : ∃ e d', read d = .error e d' ∧ e.kind = .invalidData := by
  obtain ⟨d', hd, -⟩ := read_answers h
  obtain ⟨⟨hnil, -⟩ | ⟨-, e, he, hk, -⟩, -⟩ := answer_of_stuck hr
  · exact absurd hnil hne
  · rw [he] at hd
    exact ⟨e, d', error_of_attempt hd, hk⟩

end Decoder

/-! ## Line readers -/

/-- What is given of a text before bytes that cannot be decoded, line ends being unified. A carriage
return at the very end is not given, since it is not known what comes after it. -/
def Text.beforeTear : List Char → List Char
  | '\r' :: '\n' :: cs => '\n' :: beforeTear cs
  | ['\r'] => []
  | '\r' :: c :: cs => '\n' :: beforeTear (c :: cs)
  | c :: cs => c :: beforeTear cs
  | [] => []

namespace Text

theorem beforeTear_cons {c : Char} (h : c ≠ '\r') (cs : List Char) :
    beforeTear (c :: cs) = c :: beforeTear cs := by
  rw [beforeTear] <;> simp [h]

theorem beforeTear_return {c : Char} (h : c ≠ '\n') (cs : List Char) :
    beforeTear ('\r' :: c :: cs) = '\n' :: beforeTear (c :: cs) := by
  rw [beforeTear]
  exact h

theorem unifyLineEnds_eq_beforeTear (cs : List Char) : unifyLineEnds cs =
    beforeTear cs ++ if cs.getLast? = some '\r' then ['\n'] else [] := by
  induction cs using lineEnds_induct with
  | nil => rfl
  | last => rfl
  | pair cs ih =>
    rw [unifyLineEnds, beforeTear, ih, List.cons_append]
    cases cs with
    | nil => rfl
    | cons c cs => rw [List.getLast?_cons_cons, List.getLast?_cons_cons]
  | lone c cs hc ih =>
    rw [unifyLineEnds_return hc, beforeTear_return hc, ih, List.cons_append, List.getLast?_cons_cons]
  | char c cs hc ih =>
    rw [unifyLineEnds_cons hc, beforeTear_cons hc, ih, List.cons_append]
    cases cs with
    | nil => simp [hc]
    | cons d ds => rw [List.getLast?_cons_cons]

/-- What is given has its line ends unified. -/
theorem unifyLineEnds_beforeTear (cs : List Char) : unifyLineEnds (beforeTear cs) = beforeTear cs := by
  induction cs using lineEnds_induct with
  | nil => rfl
  | last => rfl
  | pair cs ih => rw [beforeTear, unifyLineEnds_cons (by decide), ih]
  | lone c cs hc ih => rw [beforeTear_return hc, unifyLineEnds_cons (by decide), ih]
  | char c cs hc ih => rw [beforeTear_cons hc, unifyLineEnds_cons hc, ih]

end Text

namespace LineReader

open Text (beforeTear)

/-- The character read ahead and the text of the decoder are the text `ds`; after it come the bytes
`rest`. -/
def HoldsBefore (rest : List UInt8) (r : LineReader) (ds : List Char) : Prop :=
  ∃ es, r.decoder.Holds (Utf8.encode es ++ rest) ∧ r.ahead.toList ++ es = ds

variable {rest : List UInt8} {r : LineReader} {c : Char} {cs : List Char}

theorem decode_char (h : r.decoder.Holds (Utf8.encode (c :: cs) ++ rest)) :
    ∃ d, decode r = .ok (some c) { r with decoder := d } ∧ d.Holds (Utf8.encode cs ++ rest) := by
  rw [Utf8.encode_cons, List.append_assoc] at h
  obtain ⟨_, d, hd, rfl, hd'⟩ := Decoder.read_char c _ r.decoder h
  exact ⟨d, onPart_ok hd, hd'⟩

theorem nextRaw_cons (h : r.HoldsBefore rest (c :: cs)) :
    ∃ d, nextRaw r = .ok (some c) ⟨d, none⟩ ∧ d.Holds (Utf8.encode cs ++ rest) := by
  obtain ⟨es, hr, he⟩ := h
  obtain ⟨d, ahead⟩ := r
  cases ahead with
  | none =>
    obtain rfl : es = c :: cs := he
    exact decode_char (r := ⟨d, none⟩) hr
  | some a =>
    cases he
    exact ⟨d, rfl, hr⟩

/-- A character that is no carriage return is given at once. -/
theorem read_cons (hc : c ≠ '\r') (h : r.HoldsBefore rest (c :: cs)) :
    ∃ r', read r = .ok (some c) r' ∧ r'.HoldsBefore rest cs := by
  obtain ⟨d, hd, hd'⟩ := nextRaw_cons h
  refine ⟨⟨d, none⟩, ?_, cs, hd', rfl⟩
  simp only [read, bind, EStateM.bind, hd, if_neg hc]
  rfl

/-- For a carriage return the next character has to be seen. -/
theorem read_return (h : r.HoldsBefore rest ('\r' :: c :: cs)) :
    ∃ r', read r = .ok (some '\n') r' ∧ r'.HoldsBefore rest (if c = '\n' then cs else c :: cs) := by
  obtain ⟨d, hd, hd'⟩ := nextRaw_cons h
  obtain ⟨d', hnext, hheld⟩ := decode_char (r := ⟨d, none⟩) hd'
  by_cases hc : c = '\n'
  · refine ⟨⟨d', none⟩, ?_, cs, hheld, ?_⟩
    · simp only [read, afterReturn, bind, EStateM.bind, hd, if_true, hnext, if_pos hc]
      rfl
    · rw [if_pos hc]
      rfl
  · refine ⟨⟨d', some c⟩, ?_, cs, hheld, ?_⟩
    · simp only [read, afterReturn, bind, EStateM.bind, hd, if_true, hnext, if_neg hc]
      rfl
    · rw [if_neg hc]
      rfl

theorem decode_stuck (hr : Utf8.Stuck rest) (hne : rest ≠ []) (h : r.decoder.Holds rest) :
    ∃ e r', decode r = .error e r' ∧ e.kind = .invalidData := by
  obtain ⟨e, d, hd, he⟩ := Decoder.read_stuck hr hne h
  refine ⟨e, { r with decoder := d }, ?_, he⟩
  rw [decode, onPart, hd]

/-- **At the tear the reader fails.** With a carriage return in front of the tear it fails as well, and the
return is lost. -/
theorem read_torn (hr : Utf8.Stuck rest) (hne : rest ≠ [])
    (h : r.HoldsBefore rest [] ∨ r.HoldsBefore rest ['\r']) : Edge.torn.Beyond r := by
  rcases h with ⟨es, hd, he⟩ | h
  · rw [List.append_eq_nil_iff, Option.toList_eq_nil_iff] at he
    obtain ⟨ha, rfl⟩ := he
    obtain ⟨e, r', herr, hk⟩ := decode_stuck hr hne hd
    refine ⟨e, r', ?_, hk⟩
    simp only [read, nextRaw, bind, EStateM.bind, ha, herr]
  · obtain ⟨d, hd, hheld⟩ := nextRaw_cons h
    obtain ⟨e, r', herr, hk⟩ := decode_stuck (r := ⟨d, none⟩) hr hne hheld
    refine ⟨e, r', ?_, hk⟩
    simp only [read, afterReturn, bind, EStateM.bind, hd, if_true, herr]

/-- **A reader gives what is before the tear**, and then fails. -/
theorem leads_torn (hr : Utf8.Stuck rest) (hne : rest ≠ []) (h : r.HoldsBefore rest cs) :
    r.Leads Edge.torn.Beyond (beforeTear cs) := by
  induction cs using Text.lineEnds_induct generalizing r with
  | nil => exact read_torn hr hne (.inl h)
  | last => exact read_torn hr hne (.inr h)
  | pair cs ih =>
    obtain ⟨r', hread, hheld⟩ := read_return h
    exact ⟨r', hread, ih hheld⟩
  | lone c cs hc ih =>
    obtain ⟨r', hread, hheld⟩ := read_return h
    rw [if_neg hc] at hheld
    rw [Text.beforeTear_return hc]
    exact ⟨r', hread, ih hheld⟩
  | char c cs hc ih =>
    obtain ⟨r', hread, hheld⟩ := read_cons hc h
    rw [Text.beforeTear_cons hc]
    exact ⟨r', hread, ih hheld⟩

end LineReader

/-! ## Files -/

namespace File

/-- **A file gives what is before the tear**, and then the fault at the place that it has come to. -/
theorem drain_torn {f : File} {cs : List Char} (hr : f.reader.Leads Edge.torn.Beyond cs) (hb : f.returned = [])
    (log : List Event) :
    ∃ s, Source.drain ⟨f, log⟩ =
      .ok (Glyph.inscribe f.name f.place cs, .error (.invalidEncoding (f.place.after cs))) s := by
  induction cs generalizing f with
  | nil =>
    obtain ⟨e, r, hread, hk⟩ := hr
    have herror : take ⟨f, log⟩ = .error (.invalidEncoding f.place) ⟨{ f with reader := r }, log⟩ := by
      rw [take_error hb hread, ReadError.locate, if_pos hk]
    exact ⟨_, Source.drain_error herror⟩
  | cons c cs ih =>
    obtain ⟨r, hread, hleads⟩ := hr
    obtain ⟨s, hs⟩ := ih (f := { f with reader := r, place := f.place.next c }) hleads hb
    exact ⟨s, Source.drain_cons (take_char hb hread) rfl hs⟩

end File

/-! ## Lexers -/

namespace Lexer

/-- **A lexer reports the fault at the same place**, however far it has read ahead. -/
theorem tokens_torn [Alphabet] {cs : List Char} (hcs : Text.unifyLineEnds cs = cs) {f : File}
    (hr : f.reader.Leads Edge.torn.Beyond cs) (hp : f.place = .origin) (hb : f.returned = [])
    (trigraphs : Bool) (reserved : List String) :
    ∃ ts s, tokens ⟨ofFile f trigraphs reserved, []⟩ =
      .ok (ts, .error (.invalidEncoding (Location.origin.after cs))) s := by
  -- a tape of the text can be read to its end, and whoever sees the end has lost the file
  have howes := Taped.owes_ofText (Feed.supplies_single (Utf8.encode cs)) f.name trigraphs
  rw [hcs] at howes
  obtain ⟨⟨ts, _⟩, l'', htokens, rfl, _, ⟨_, _, _, _, hspent⟩, _⟩ :=
    (Taped.ledger (Location.origin.after cs)).tokens_gives _
      ⟨ofSource (Taped.ofText f.name trigraphs cs) reserved, []⟩ howes
  obtain ⟨l', hyields, hnone⟩ := exists_yields htokens
  have hstart : (Taped.pact 0 .torn (Location.origin.after cs)).lexer.Rel (ofFile f trigraphs reserved)
      (ofSource (Taped.ofText f.name trigraphs cs) reserved) :=
    ⟨Taped.pact_ofText (k := 0) hr hp hb trigraphs, rfl, rfl⟩
  exact (Taped.pact 0 .torn (Location.origin.after cs)).tokens_fault rfl
    (fun _ _ => Taped.not_lost_of_rel) hstart hyields hnone hspent

/-- **The place of a tear.** If the bytes of a file are not all text, then the file gives the characters of
the longest text with which they start, line ends being unified, and then a fault at the place after
them; the first fault of a lexer is the same one. Only a carriage return at the very end of the text is
not given, and the fault is then at its place. -/
theorem fault_of_tear [Alphabet] {bytes rest : List UInt8} {cs : List Char} (hs : Utf8.Splits bytes cs rest)
    (hr : rest ≠ []) {feed : Feed} (hf : feed.Supplies bytes) (name : Option String) (trigraphs : Bool)
    (reserved : List String) :
    ∃ (shown : List Char) (ts : List Token),
      Text.unifyLineEnds cs = shown ++ (if cs.getLast? = some '\r' then ['\n'] else []) ∧
      (Source.drain.run (File.ofFeed feed name)).1 = .ok (Glyph.inscribe name .origin shown,
        .error (.invalidEncoding (Location.origin.after shown))) ∧
      (tokens.run (ofFile (.ofFeed feed name) trigraphs reserved)).1 =
        .ok (ts, .error (.invalidEncoding (Location.origin.after shown))) := by
  have hstuck : Utf8.Stuck rest := by
    obtain ⟨cs', rest', hs', hstuck⟩ := Utf8.exists_splits bytes
    rw [(hs.unique hs').2]
    exact hstuck
  have hheld : (LineReader.ofFeed feed).HoldsBefore rest cs := ⟨cs, ⟨bytes, hf, hs.eq.symm⟩, rfl⟩
  have hleads := LineReader.leads_torn hstuck hr hheld
  obtain ⟨s, hdrain⟩ := File.drain_torn (f := .ofFeed feed name) hleads rfl []
  obtain ⟨ts, s', htokens⟩ := tokens_torn (f := .ofFeed feed name) (Text.unifyLineEnds_beforeTear cs)
    hleads rfl rfl trigraphs reserved
  refine ⟨Text.beforeTear cs, ts, Text.unifyLineEnds_eq_beforeTear cs, ?_, ?_⟩
  · rw [ScanM.run, hdrain]
    rfl
  · rw [ScanM.run, htokens]

/-- A line end made of two characters in two pieces, and a byte that leads nothing. -/
theorem fault_of_tear_after_line :
    Utf8.Splits [0x61, 0x0D, 0x0A, 0x62, 0xFF] ['a', '\r', '\n', 'b'] [0xFF] ∧
    Feed.Supplies [.bytes [0x61, 0x0D], .bytes [0x0A, 0x62, 0xFF]] [0x61, 0x0D, 0x0A, 0x62, 0xFF] ∧
    ∃ (shown : List Char) (ts : List Token), ['a', '\n', 'b'] = shown ∧
      (Source.drain.run (File.ofFeed [.bytes [0x61, 0x0D], .bytes [0x0A, 0x62, 0xFF]] none)).1 =
        .ok (Glyph.inscribe none .origin shown, .error (.invalidEncoding (Location.origin.after shown))) ∧
      (tokens.run (ofFile (.ofFeed [.bytes [0x61, 0x0D], .bytes [0x0A, 0x62, 0xFF]] none) true [])).1 =
        .ok (ts, .error (.invalidEncoding (Location.origin.after shown))) := by
  have hs : Utf8.Splits [0x61, 0x0D, 0x0A, 0x62, 0xFF] ['a', '\r', '\n', 'b'] [0xFF] :=
    Utf8.splits_of_stuck (Utf8.stuck_of_lead rfl []) ['a', '\r', '\n', 'b']
  have hf : Feed.Supplies [.bytes [0x61, 0x0D], .bytes [0x0A, 0x62, 0xFF]]
      [0x61, 0x0D, 0x0A, 0x62, 0xFF] := .piece 0x61 [0x0D] (.piece 0x0A [0x62, 0xFF] .nil)
  obtain ⟨shown, ts, hshown, hdrain, htokens⟩ := fault_of_tear hs (by decide) hf none true []
  exact ⟨hs, hf, shown, ts, hshown.trans (List.append_nil shown), hdrain, htokens⟩

/-- **A carriage return before a tear is lost.** After the letter and the line end the fault should be at
the start of the second line; it is at the end of the first one, and the line end is not given. -/
theorem fault_of_tear_after_return :
    Utf8.Splits [0x61, 0x0D, 0xFF] ['a', '\r'] [0xFF] ∧
    Text.unifyLineEnds ['a', '\r'] = ['a', '\n'] ∧ Location.origin.after ['a', '\n'] = Location.origin.next '\n' ∧
    (Source.drain.run (File.ofFeed [.bytes [0x61, 0x0D, 0xFF]] none)).1 =
      .ok ([.plain 'a' none .origin], .error (.invalidEncoding (Location.origin.right 1))) ∧
    (tokens.run (ofFile (.ofFeed [.bytes [0x61, 0x0D, 0xFF]] none) false [])).1 =
      .ok ([], .error (.invalidEncoding (Location.origin.right 1))) := by
  refine ⟨Utf8.splits_of_stuck (Utf8.stuck_of_lead rfl []) ['a', '\r'], rfl, by decide, ?_, ?_⟩
  iterate 2 decide +kernel

end Lexer

end Pretoken
